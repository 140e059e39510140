import Sieve.Text.Basic
import Sieve.Decimal.Reading
import Sieve.Json.Value

/-!
# JSON tokens

Cutting JSON text into brackets, separators and scalar values. A token is never empty, so the
text runs out: `next?` returns a rest that is shorter than its input.

## Main definitions

* `Token` — a bracket, a separator or a scalar value
* `number?` — the value of a number's text
* `tokens?` — the tokens of a text; `none` if some stretch of it is no token
-/

namespace Sieve.Json

open Sieve.Text

/-- A piece of JSON text. -/
inductive Token where
  | openArray
  | closeArray
  | openObject
  | closeObject
  | comma
  | colon
  | scalar (value : Json)

/-- A JSON blank. -/
def isSpace (c : Char) : Bool := c == ' ' || c == '\t' || c == '\n' || c == '\r'

/-! ### Strings -/

/-- The character of a one-letter escape. -/
def simpleEscape? (c : Char) : Option Char :=
  if c == '"' || c == '\\' || c == '/' then some c
  else if c == 'b' then some '\x08'
  else if c == 'f' then some '\x0c'
  else if c == 'n' then some '\n'
  else if c == 'r' then some '\r'
  else if c == 't' then some '\t'
  else none

/-- The first half of a pair that spells a character above U+FFFF. -/
def isHighSurrogate (n : Nat) : Bool := 0xD800 ≤ n && n < 0xDC00

/-- The second half of such a pair. -/
def isLowSurrogate (n : Nat) : Bool := 0xDC00 ≤ n && n < 0xE000

/-- The character that a surrogate pair spells. -/
def pairedChar? (high low : Nat) : Option Char :=
  if isHighSurrogate high && isLowSurrogate low then
    scalar? (0x10000 + (high - 0xD800) * 0x400 + (low - 0xDC00))
  else none

/-- The text of a string literal after its opening quote, and what follows the closing one. Raw
control characters, unknown escapes and halves of pairs are refused. -/
def stringBody? : List Char → Option (List Char × List Char)
  | [] => none
  | '"' :: cs => some ([], cs)
  | '\\' :: 'u' :: a :: b :: c :: d :: '\\' :: 'u' :: e :: f :: g :: h :: cs =>
    match hexDigitsValue? [a, b, c, d] with
    | none => none
    | some high =>
      match scalar? high with
      | some x => (stringBody? ('\\' :: 'u' :: e :: f :: g :: h :: cs)).map fun r => (x :: r.1, r.2)
      | none =>
        match hexDigitsValue? [e, f, g, h] with
        | none => none
        | some low =>
          match pairedChar? high low with
          | some x => (stringBody? cs).map fun r => (x :: r.1, r.2)
          | none => none
  | '\\' :: 'u' :: a :: b :: c :: d :: cs =>
    match (hexDigitsValue? [a, b, c, d]).bind scalar? with
    | some x => (stringBody? cs).map fun r => (x :: r.1, r.2)
    | none => none
  | '\\' :: c :: cs =>
    match simpleEscape? c with
    | some x => (stringBody? cs).map fun r => (x :: r.1, r.2)
    | none => none
  | c :: cs => if c.toNat < 0x20 then none else (stringBody? cs).map fun r => (c :: r.1, r.2)

/-! ### Numbers -/

/-- Reads digits into a significand below `2 ^ 64` until one more would not fit; returns it with
the digits left over. -/
def significand : Nat → List Char → Nat × List Char
  | n, [] => (n, [])
  | n, d :: ds =>
    let m := n * 10 + digitValue d
    if m < Nat.pow 2 64 then significand m ds else (n, d :: ds)

/-- The double with the given digits around the point and the given exponent. Digits that do not
fit into the significand count only through their place. -/
def floatValue? (negative : Bool) (whole fraction : List Char) (exponent : Int) : Option Float :=
  let (n, overflow) := significand 0 whole
  let (m, unread) := significand n fraction
  let scale : Int := overflow.length - (fraction.length - unread.length : Nat) + exponent
  (Decimal.scaled? m scale).map (Decimal.signedDouble negative)

/-- The exponent mark, its sign and its digits. -/
def exponentParts? : List Char → Option Int
  | [] => some 0
  | c :: cs => if c == 'e' || c == 'E' then Decimal.exponent? cs else none

/-- The value of a number's text. A whole number in a 64-bit range stays one, except `-0`. -/
def number? (cs : List Char) : Option Json :=
  let (negative, body) := match cs with
    | '-' :: r => (true, r)
    | r => (false, r)
  let (whole, rest) := body.span isAsciiDigit
  let leadingZero := whole.head? == some '0' && whole.length > 1
  if whole.isEmpty || leadingZero then none
  else
    match rest with
    | [] =>
      let i := Decimal.signed negative (digitsValue whole)
      if negative && i == 0 then some (.float (-0.0))
      else if Decimal.fits i || Decimal.fitsUnsigned i then some (.int i)
      else (floatValue? negative whole [] 0).map .float
    | '.' :: r =>
      let (fraction, r) := r.span isAsciiDigit
      if fraction.isEmpty then none
      else (exponentParts? r).bind fun e => (floatValue? negative whole fraction e).map .float
    | r => (exponentParts? r).bind fun e => (floatValue? negative whole [] e).map .float

/-- A character that may stand in a number or a word. -/
def isScalarChar (c : Char) : Bool :=
  isAsciiLetter c || isAsciiDigit c || c == '-' || c == '+' || c == '.'

/-- The value of a word or a number. -/
def word? (cs : List Char) : Option Json :=
  if cs = "null".toList then some .null
  else if cs = "true".toList then some (.bool true)
  else if cs = "false".toList then some (.bool false)
  else number? cs

/-! ### Tokens -/

/-- A character put in front of what was read leaves what follows as it is. -/
theorem length_lt_of_map_cons {read : Option (List Char × List Char)} {x : Char} {n : Nat}
    {r : List Char × List Char} (hread : ∀ q, read = some q → q.2.length < n)
    (h : (read.map fun q => (x :: q.1, q.2)) = some r) : r.2.length < n := by
  obtain ⟨q, hq, rfl⟩ := Option.map_eq_some_iff.1 h
  exact hread q hq

theorem length_stringBody? {cs : List Char} {r : List Char × List Char}
    (h : stringBody? cs = some r) : r.2.length < cs.length := by
  fun_induction stringBody? cs generalizing r with
  | case2 cs =>
    obtain rfl := Option.some.inj h
    exact Nat.lt_succ_self _
  | case4 a b c d e f g i cs high hhigh x hx ih =>
    -- the first of the two escapes is a character of its own
    have hlt := length_lt_of_map_cons (fun _ => ih) h
    simp only [List.length_cons] at hlt ⊢
    omega
  | case6 a b c d e f g i cs high hhigh hhalf low hlow x hx ih =>
    have hlt := length_lt_of_map_cons (fun _ => ih) h
    simp only [List.length_cons]
    omega
  | case8 a b c d cs hsingle x hx ih =>
    have hlt := length_lt_of_map_cons (fun _ => ih) h
    simp only [List.length_cons]
    omega
  | case10 c cs hpair hsingle x hx ih =>
    exact Nat.lt_succ_of_lt (Nat.lt_succ_of_lt (length_lt_of_map_cons (fun _ => ih) h))
  | case13 c cs hquote hpair hsingle hsimple hplain ih =>
    exact Nat.lt_succ_of_lt (length_lt_of_map_cons (fun _ => ih) h)
  -- all else is refused
  | case1 | case3 | case5 | case7 | case9 | case11 | case12 => cases h

/-- The first token of a text that begins with no blank, and what follows it. -/
def next? (c : Char) (cs : List Char) : Option (Token × Rest cs) :=
  if c == '[' then some (.openArray, Rest.all cs)
  else if c == ']' then some (.closeArray, Rest.all cs)
  else if c == '\x7b' then some (.openObject, Rest.all cs)
  else if c == '\x7d' then some (.closeObject, Rest.all cs)
  else if c == ',' then some (.comma, Rest.all cs)
  else if c == ':' then some (.colon, Rest.all cs)
  else if c == '"' then
    match h : stringBody? cs with
    | none => none
    | some (text, rest) =>
      some (.scalar (.string (String.ofList text)), Rest.ofLt rest (length_stringBody? h))
  else
    (word? (c :: cs.takeWhile isScalarChar)).map fun v =>
      (.scalar v, Rest.dropWhile isScalarChar cs)

/-- The tokens of a text; `none` if some stretch of it is no token. -/
def tokens? : List Char → Option (List Token)
  | [] => some []
  | c :: cs =>
    if isSpace c then tokens? cs
    else
      match next? c cs with
      | none => none
      | some (token, rest) => (tokens? rest.1).map (token :: ·)
termination_by cs => cs.length
decreasing_by
  · simp
  · have := rest.2
    simp only [List.length_cons]
    omega

end Sieve.Json
