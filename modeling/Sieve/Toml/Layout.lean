/-!
# The layout of TOML text

What stands between the pieces of a document: spaces, comments and line breaks. A line break is a
line feed, which a carriage return may precede; a carriage return alone is refused everywhere. A
comment runs to the end of its line and holds no control character but the tab.

## Main definitions

* `isPlain` — a character that a comment or a string may hold
* `dropSpaces`, `lineEnd?`, `skipGap?`, `dropBlankLines` — dropping layout from the front of a text
-/

namespace Sieve.Toml

/-- A space within a line. -/
def isSpace (c : Char) : Bool := c == ' ' || c == '\t'

/-- A character that is no control character, or a tab. -/
def isPlain (c : Char) : Bool := c == '\t' || (0x20 ≤ c.toNat && c.toNat != 0x7F)

/-- Drops spaces. -/
def dropSpaces (cs : List Char) : List Char := cs.dropWhile isSpace

/-- Drops one line break. -/
def newline? : List Char → Option (List Char)
  | '\n' :: cs => some cs
  | '\r' :: '\n' :: cs => some cs
  | _ => none

/-- Drops a comment, if there is one. -/
def dropComment : List Char → List Char
  | '#' :: cs => cs.dropWhile isPlain
  | cs => cs

/-- Drops the rest of a line on which nothing but a comment may follow, with its line break. -/
def lineEnd? (cs : List Char) : Option (List Char) :=
  match dropComment (dropSpaces cs) with
  | [] => some []
  | rest => newline? rest

/-- Drops spaces, line breaks and comments, as they stand inside an array. A comment must end with
a line break. -/
def skipGap? (inComment : Bool) : List Char → Option (List Char)
  | [] => if inComment then none else some []
  | '\n' :: cs => skipGap? false cs
  | '\r' :: '\n' :: cs => skipGap? false cs
  | c :: cs =>
    if inComment then if isPlain c then skipGap? true cs else none
    else if isSpace c then skipGap? false cs
    else if c == '#' then skipGap? true cs
    else some (c :: cs)

/-- Drops spaces and line breaks. -/
def dropBlankLines : List Char → List Char
  | [] => []
  | '\n' :: cs => dropBlankLines cs
  | '\r' :: '\n' :: cs => dropBlankLines cs
  | c :: cs => if isSpace c then dropBlankLines cs else c :: cs

theorem length_dropSpaces_le (cs : List Char) : (dropSpaces cs).length ≤ cs.length :=
  (List.dropWhile_sublist _).length_le

theorem length_newline?_lt {cs rest : List Char} (h : newline? cs = some rest) :
    rest.length < cs.length := by
  unfold newline? at h
  split at h
  · obtain rfl := Option.some.inj h
    exact Nat.lt_succ_self _
  · obtain rfl := Option.some.inj h
    simp only [List.length_cons]
    omega
  · simp at h

theorem length_dropBlankLines_le (cs : List Char) : (dropBlankLines cs).length ≤ cs.length := by
  fun_induction dropBlankLines cs with
  | case1 => exact Nat.le_refl _
  | case2 cs ih => exact Nat.le_succ_of_le ih
  | case3 cs ih => exact Nat.le_succ_of_le (Nat.le_succ_of_le ih)
  | case4 c cs hfeed hreturn hspace ih => exact Nat.le_succ_of_le ih
  | case5 c cs hfeed hreturn hspace => exact Nat.le_refl _

end Sieve.Toml
