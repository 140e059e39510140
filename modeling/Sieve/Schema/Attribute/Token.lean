import Sieve.Decimal.Reading
import Sieve.Schema.Attribute.Basic
import Sieve.Text.Basic

/-!
# Tokens of attribute arguments

The arguments of an attribute are cut into words, literals and marks. Blanks between them are
dropped; a character that begins no token makes the whole text malformed.

## Main definitions

* `Attribute.Token` — a word, a literal or a mark
* `Attribute.unescape` — the text that the inside of a string literal spells
* `Attribute.numberValue` — the value of a number's text
* `Attribute.tokens?` — the tokens of a text
-/

namespace Sieve.Schema.Attribute

open Sieve.Text

/-- A piece of an argument list. -/
inductive Token where
  | word (name : String)
  /-- A string or a number. -/
  | literal (value : Value)
  | openParen
  | closeParen
  | openBracket
  | closeBracket
  | comma
  | colon
deriving Inhabited, BEq

/-- A blank between tokens. -/
def isGap (c : Char) : Bool := c == ' ' || c == '\t' || c == '\r' || c == '\n'

/-- The text that the inside of a string literal spells: `\n` and `\t` are a line break and a tab,
a backslash before any other character stands for that character, and one at the end for itself. -/
def unescape : List Char → List Char
  | [] => []
  | ['\\'] => ['\\']
  | '\\' :: c :: cs =>
    (if c = 'n' then '\n' else if c = 't' then '\t' else c) :: unescape cs
  | c :: cs => c :: unescape cs

/-- The inside of a string literal up to its closing quote, as written, and what follows the
quote. -/
def literalSpan? : List Char → Option (List Char × List Char)
  | [] => none
  | '"' :: cs => some ([], cs)
  | '\\' :: c :: cs => (literalSpan? cs).map fun p => ('\\' :: c :: p.1, p.2)
  | c :: cs => (literalSpan? cs).map fun p => (c :: p.1, p.2)

/-- The digits that continue a number: some digits, and a fraction if a digit follows the point. -/
def digitSpan (cs : List Char) : List Char × List Char :=
  let whole := cs.takeWhile isAsciiDigit
  let rest := cs.dropWhile isAsciiDigit
  match rest with
  | '.' :: d :: r =>
    if isAsciiDigit d then
      (whole ++ '.' :: d :: r.takeWhile isAsciiDigit, r.dropWhile isAsciiDigit)
    else (whole, rest)
  | _ => (whole, rest)

/-- The value of a number's text: whole in the signed 64-bit range, or else a double. -/
def numberValue (cs : List Char) : Value :=
  match Decimal.int? cs with
  | some i => .int i
  | none => .float ((Decimal.float? cs).getD 0)

/-- A number begins here. -/
def startsNumber (c : Char) (cs : List Char) : Bool :=
  isAsciiDigit c || (c == '-' && cs.head?.any isAsciiDigit)

theorem length_literalSpan? {cs : List Char} {p : List Char × List Char}
    (h : literalSpan? cs = some p) : p.2.length < cs.length := by
  fun_induction literalSpan? cs generalizing p with
  | case1 => cases h
  | case2 cs =>
    obtain rfl := Option.some.inj h
    exact Nat.lt_succ_self _
  | case3 c cs ih =>
    obtain ⟨q, hq, rfl⟩ := Option.map_eq_some_iff.1 h
    have hlt := ih hq
    exact Nat.lt_succ_of_lt (Nat.lt_succ_of_lt hlt)
  | case4 c cs hquote hback ih =>
    obtain ⟨q, hq, rfl⟩ := Option.map_eq_some_iff.1 h
    have hlt := ih hq
    exact Nat.lt_succ_of_lt hlt

theorem length_digitSpan_le (cs : List Char) : (digitSpan cs).2.length ≤ cs.length := by
  have h := (List.dropWhile_sublist (l := cs) isAsciiDigit).length_le
  simp only [digitSpan]
  split
  · next d r hr =>
    have hr' := congrArg List.length hr
    have h₂ := (List.dropWhile_sublist (l := r) isAsciiDigit).length_le
    simp only [List.length_cons] at hr'
    split
    · show (r.dropWhile isAsciiDigit).length ≤ cs.length
      omega
    · exact h
  · exact h

/-- The first token of a text that begins with no blank, and what follows it. -/
def next? (c : Char) (cs : List Char) : Option (Token × Rest cs) :=
  if c == '(' then some (.openParen, Rest.all cs)
  else if c == ')' then some (.closeParen, Rest.all cs)
  else if c == '[' then some (.openBracket, Rest.all cs)
  else if c == ']' then some (.closeBracket, Rest.all cs)
  else if c == ',' then some (.comma, Rest.all cs)
  else if c == ':' then some (.colon, Rest.all cs)
  else if c == '"' then
    match h : literalSpan? cs with
    | none => none
    | some (inside, rest) =>
      some (.literal (.string (String.ofList (unescape inside))),
        Rest.ofLt rest (length_literalSpan? h))
  else if startsNumber c cs then
    let p := digitSpan cs
    some (.literal (numberValue (c :: p.1)), ⟨p.2, length_digitSpan_le cs⟩)
  else if isIdentStart c then
    some (.word (String.ofList (c :: cs.takeWhile isIdentRest)),
      Rest.dropWhile isIdentRest cs)
  else none

/-- The tokens of a text; none if some stretch of it is no token. -/
def tokens? : List Char → Option (List Token)
  | [] => some []
  | c :: cs =>
    if isGap c then tokens? cs
    else
      match next? c cs with
      | none => none
      | some (token, rest) => (tokens? rest.1).map (token :: ·)
termination_by cs => cs.length
decreasing_by
  · simp
  · have := rest.2
    simp only [List.length_cons]
    omega

end Sieve.Schema.Attribute
