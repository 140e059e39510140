import Sieve.Entries

/-!
# Environment variables

The environment is a list of settings: the name of a variable, an equals sign and its value. No
variable has an equals sign in its name, but a name that is looked up may have one, and it then
reaches into a value.

In a text, a reference `$` with a name in braces stands for the value of a variable. A variable that
is not set leaves its reference as it is, and a value is not searched for references again.

## Main definitions

* `Variables` — the variables that are set
* `Variables.value?` — the value of a name
* `Variables.references` — the names that a text refers to
* `Variables.expand` — the text with references replaced
-/

namespace Sieve

/-- The environment variables that are set. -/
abbrev Variables := Entries String

namespace Variables

/-- The value of a name: what follows the name and an equals sign in the first setting that begins
with the two. -/
def value? (vars : Variables) (name : String) : Option String :=
  vars.findSome? fun v =>
    ((name ++ "=").toList.isPrefixOf? (v.1 ++ "=" ++ v.2).toList).map String.ofList

/-! ### References -/

/-- The name of a reference after its opening brace, and what follows the closing one. A name has
at least one character. -/
def name? (cs : List Char) : Option (List Char × List Char) :=
  match cs.takeWhile (· ≠ '\x7d'), cs.dropWhile (· ≠ '\x7d') with
  | c :: name, _ :: rest => some (c :: name, rest)
  | _, _ => none

theorem length_name?_lt {cs : List Char} {r : List Char × List Char} (h : name? cs = some r) :
    r.2.length < cs.length := by
  simp only [name?] at h
  split at h
  · rename_i c name d rest _ hd
    obtain rfl := Option.some.inj h
    have := (List.dropWhile_sublist (l := cs) (· ≠ '\x7d')).length_le
    rw [hd] at this
    exact this
  · simp at h

/-- Text as it is, or a reference. -/
inductive Piece where
  | plain (c : Char)
  | reference (name : List Char)

/-- A text cut into references and plain characters, from the left. -/
def pieces : List Char → List Piece
  | '$' :: '\x7b' :: cs =>
    match _h : name? cs with
    | some (name, rest) => .reference name :: pieces rest
    | none => .plain '$' :: pieces ('\x7b' :: cs)
  | c :: cs => .plain c :: pieces cs
  | [] => []
termination_by cs => cs.length
decreasing_by
  · have := length_name?_lt _h
    simp only [List.length_cons] at *
    omega
  · simp
  · simp

/-- The text of a piece. -/
def Piece.expand (vars : Variables) : Piece → List Char
  | plain c => [c]
  | reference name =>
    match vars.value? (String.ofList name) with
    | some value => value.toList
    | none => '$' :: '\x7b' :: name ++ ['\x7d']

/-- The name that a piece refers to. -/
def Piece.name? : Piece → Option String
  | plain _ => none
  | reference name => some (String.ofList name)

/-- The names that a text refers to. -/
def references (text : String) : List String := (pieces text.toList).filterMap Piece.name?

/-- The text with references replaced. -/
def expand (vars : Variables) (text : String) : String :=
  String.ofList ((pieces text.toList).flatMap (Piece.expand vars))

end Variables

end Sieve
