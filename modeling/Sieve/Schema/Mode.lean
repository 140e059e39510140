import Sieve.Text.Basic

/-!
# Reading modes

What a character of a schema means depends on where it stands: in code, in a string literal, right
after a backslash in one, or in a comment. A string literal ends with its quote or with its line,
and a comment ends with its line; the line break itself is read as code in both cases.

Modes let every scanner below go through a text one character at a time.

## Main definitions

* `Mode` — where a character stands
* `Mode.reading` — the mode in which a character is read
* `Mode.afterCode`, `Mode.afterWord` — the mode after it, with and without comments
* `groupDepth` — how many brackets are open
-/

namespace Sieve.Schema

/-- Where the next character stands. -/
inductive Mode where
  | code
  | string
  | escape
  | comment
deriving Repr, DecidableEq

namespace Mode

/-- The mode in which `c` is read: a line break ends strings and comments. -/
def reading (m : Mode) (c : Char) : Mode :=
  if c = '\n' ∧ (m = string ∨ m = comment) then code else m

@[simp] theorem reading_code (c : Char) : code.reading c = code := by
  simp [reading]

/-- The mode after `c`, where a quote begins a string and nothing begins a comment. -/
def afterWord (m : Mode) (c : Char) : Mode :=
  match m with
  | code => if c = '"' then string else code
  | string => if c = '\\' then escape else if c = '"' then code else string
  | escape => string
  | comment => comment

/-- The mode after `c` with `rest` behind it, where two slashes in code begin a comment. -/
def afterCode (m : Mode) (c : Char) (rest : List Char) : Mode :=
  if m = code ∧ c = '/' ∧ rest.head? = some '/' then comment else m.afterWord c

end Mode

/-- How many brackets are open after one more character; one too many closing brackets are
ignored. -/
def groupDepth (depth : Nat) (c : Char) : Nat :=
  if c = '(' ∨ c = '[' then depth + 1 else if c = ')' ∨ c = ']' then depth - 1 else depth

end Sieve.Schema
