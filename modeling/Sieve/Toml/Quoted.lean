import Sieve.Text.Basic
import Sieve.Toml.Layout

/-!
# TOML strings

Strings stand in quotation marks, where a backslash begins an escape, or in apostrophes, where
every character is itself. Three marks in a row open a string of several lines: a line break right
after them is dropped, a backslash at the end of a line drops the blanks and line breaks that
follow, and up to two marks right before the closing three belong to the text.

## Main definitions

* `Quote` — the two marks
* `escape?` — what an escape spells
* `line?`, `lines?` — the text of a string after its opening mark or marks
* `quoted?` — a string of either form
-/

namespace Sieve.Toml

open Sieve.Text

/-- The mark that a string stands in. -/
inductive Quote where
  /-- The quotation mark; a backslash begins an escape. -/
  | basic
  /-- The apostrophe; a backslash is itself. -/
  | literal
deriving Repr, DecidableEq

/-- The mark's character. -/
def Quote.mark : Quote → Char
  | basic => '"'
  | literal => '\''

/-! ### Escapes -/

/-- The character that a code point of `width` hexadecimal digits spells. -/
def codePoint? (width : Nat) (cs : List Char) : Option (Char × List Char) :=
  let digits := cs.take width
  if digits.length = width then
    ((hexDigitsValue? digits).bind scalar?).map fun c => (c, cs.drop width)
  else none

/-- The character of a one-letter escape. -/
def letterEscape? (c : Char) : Option Char :=
  if c == '"' || c == '\\' then some c
  else if c == 'b' then some '\x08'
  else if c == 'f' then some '\x0c'
  else if c == 'n' then some '\n'
  else if c == 'r' then some '\r'
  else if c == 't' then some '\t'
  else none

/-- The character of an escape after its backslash. -/
def escape? : List Char → Option (Char × List Char)
  | [] => none
  | 'u' :: cs => codePoint? 4 cs
  | 'U' :: cs => codePoint? 8 cs
  | c :: cs => (letterEscape? c).map fun x => (x, cs)

theorem length_codePoint?_le {width : Nat} {cs : List Char} {r : Char × List Char}
    (h : codePoint? width cs = some r) : r.2.length ≤ cs.length := by
  simp only [codePoint?] at h
  split at h
  · obtain ⟨c, -, rfl⟩ := Option.map_eq_some_iff.1 h
    simp
  · simp at h

theorem length_escape?_lt {cs : List Char} {r : Char × List Char} (h : escape? cs = some r) :
    r.2.length < cs.length := by
  unfold escape? at h
  split at h
  · simp at h
  · exact Nat.lt_succ_of_le (length_codePoint?_le h)
  · exact Nat.lt_succ_of_le (length_codePoint?_le h)
  · obtain ⟨c, -, rfl⟩ := Option.map_eq_some_iff.1 h
    simp

/-- The first character that the text `c :: cs` of a string spells, and what follows it. -/
def spelled? (q : Quote) (c : Char) (cs : List Char) : Option (Char × Rest cs) :=
  if c = '\\' ∧ q = .basic then
    match h : escape? cs with
    | none => none
    | some (x, rest) => some (x, Rest.ofLt rest (length_escape?_lt h))
  else if isPlain c then some (c, Rest.all cs)
  else none

/-! ### Strings -/

/-- The text of a string of one line, after its opening mark. -/
def line? (q : Quote) : List Char → Option (List Char × List Char)
  | [] => none
  | c :: cs =>
    if c = q.mark then some ([], cs)
    else
      match spelled? q c cs with
      | none => none
      | some (x, rest) => (line? q rest.1).map fun r => (x :: r.1, r.2)
termination_by cs => cs.length
decreasing_by
  have := rest.2
  simp only [List.length_cons]
  omega

/-- The end of a string of several lines: three marks, or up to two more that belong to the text. -/
def closing? (q : Quote) (cs : List Char) : Option (List Char × List Char) :=
  let marks := (cs.take 5).takeWhile (· == q.mark)
  if marks.length < 3 then none else some (marks.drop 3, cs.drop marks.length)

/-- Drops a backslash at the end of a line, after it the spaces, and the blank lines that follow. -/
def continuation? (q : Quote) : List Char → Option (List Char)
  | '\\' :: cs => if q = .basic then (newline? (dropSpaces cs)).map dropBlankLines else none
  | _ => none

theorem length_continuation?_lt {q : Quote} {cs rest : List Char}
    (h : continuation? q cs = some rest) : rest.length < cs.length := by
  unfold continuation? at h
  split at h
  · rename_i tail
    split at h
    · obtain ⟨r, hr, rfl⟩ := Option.map_eq_some_iff.1 h
      have h₁ := length_dropBlankLines_le r
      have h₂ := length_newline?_lt hr
      have h₃ := length_dropSpaces_le tail
      simp only [List.length_cons]
      omega
    · simp at h
  · simp at h

/-- The text of a string of several lines, after its opening marks. -/
def lines? (q : Quote) (cs : List Char) : Option (List Char × List Char) :=
  match closing? q cs with
  | some r => some r
  | none =>
    match _hc : continuation? q cs with
    | some rest => lines? q rest
    | none =>
      match _hn : newline? cs with
      | some rest => (lines? q rest).map fun r => ('\n' :: r.1, r.2)
      | none =>
        match cs with
        | [] => none
        | c :: cs =>
          match spelled? q c cs with
          | none => none
          | some (x, rest) => (lines? q rest.1).map fun r => (x :: r.1, r.2)
termination_by cs.length
decreasing_by
  · exact length_continuation?_lt _hc
  · exact length_newline?_lt _hn
  · have := rest.2
    simp only [List.length_cons]
    omega

/-- A string in the given marks. -/
def quotedBy? (q : Quote) : List Char → Option (String × List Char)
  | a :: b :: c :: cs =>
    if a = q.mark ∧ b = q.mark ∧ c = q.mark then
      (lines? q ((newline? cs).getD cs)).map fun r => (String.ofList r.1, r.2)
    else if a = q.mark then (line? q (b :: c :: cs)).map fun r => (String.ofList r.1, r.2)
    else none
  | a :: cs => if a = q.mark then (line? q cs).map fun r => (String.ofList r.1, r.2) else none
  | [] => none

/-- A string of one line, as a key may be. -/
def quotedLine? : List Char → Option (String × List Char)
  | '"' :: cs => (line? .basic cs).map fun r => (String.ofList r.1, r.2)
  | '\'' :: cs => (line? .literal cs).map fun r => (String.ofList r.1, r.2)
  | _ => none

/-- A string. -/
def quoted? (cs : List Char) : Option (String × List Char) :=
  quotedBy? .basic cs <|> quotedBy? .literal cs

end Sieve.Toml
