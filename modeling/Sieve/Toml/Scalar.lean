import Sieve.Decimal.Reading
import Sieve.Instant.Text
import Sieve.Toml.Layout
import Sieve.Toml.Value

/-!
# TOML numbers, booleans and moments

Values that are one word: no such word holds a space, but for the one that may join a date to a
time. The longest word is taken first and then read as a whole.

## Main definitions

* `word` — the longest word
* `moment?`, `integer?`, `float?`, `boolean?` — what a whole word spells
* `scalar?` — the value of a word
-/

namespace Sieve.Toml

open Sieve.Text

/-! ### Words -/

/-- A character that a word may hold. -/
def isWordChar (c : Char) : Bool :=
  isAsciiLetter c || isAsciiDigit c || c == '_' || c == '+' || c == '-' || c == '.' || c == ':'

/-! ### Dates and times -/

/-- A day that exists. -/
def date? (cs : List Char) : Option (List Char) := do
  let (year, cs) ← Instant.fixedNumber? 4 cs
  let cs ← Instant.literal? '-' cs
  let (month, cs) ← Instant.fixedNumber? 2 cs
  let cs ← Instant.literal? '-' cs
  let (day, cs) ← Instant.fixedNumber? 2 cs
  if 1 ≤ day ∧ day ≤ Date.daysInMonth year month then some cs else none

/-- A time of day; second 60 is a leap second. -/
def time? (cs : List Char) : Option (List Char) := do
  let (hour, cs) ← Instant.fixedNumber? 2 cs
  let cs ← Instant.literal? ':' cs
  let (minute, cs) ← Instant.fixedNumber? 2 cs
  let cs ← Instant.literal? ':' cs
  let (second, cs) ← Instant.fixedNumber? 2 cs
  let (_, cs) ← Instant.fraction? cs
  if hour < 24 ∧ minute < 60 ∧ second ≤ 60 then some cs else none

/-- The end of a moment, before which an offset from UTC may stand. -/
def momentEnd? : List Char → Option Unit
  | [] => some ()
  | ['Z'] | ['z'] => some ()
  | c :: cs =>
    if c = '+' ∨ c = '-' then do
      let (hour, cs) ← Instant.fixedNumber? 2 cs
      let cs ← Instant.literal? ':' cs
      let (minute, cs) ← Instant.fixedNumber? 2 cs
      if cs.isEmpty ∧ hour < 24 ∧ minute < 60 then some () else none
    else none

/-- A date with a time, with an offset or without. -/
def dateTime? (cs : List Char) : Option Unit := do
  let rest ← date? cs
  match rest with
  | [] => none
  | c :: rest => if c = 'T' ∨ c = 't' ∨ c = ' ' then (time? rest).bind momentEnd? else none

/-- A date, a time, or both, to the end of the word. -/
def isMoment (cs : List Char) : Bool :=
  date? cs == some [] || time? cs == some [] || (dateTime? cs).isSome

/-! ### Numbers -/

/-- The digits of a run in which single underscores may stand between digits. -/
def digitRun? (isDigit : Char → Bool) : List Char → Option (List Char)
  | [] => none
  | [c] => if isDigit c then some [c] else none
  | c :: '_' :: cs => if isDigit c then (digitRun? isDigit cs).map (c :: ·) else none
  | c :: cs => if isDigit c then (digitRun? isDigit cs).map (c :: ·) else none

/-- The digits of a whole number, which begins with no zero unless it is zero. -/
def wholeDigits? (cs : List Char) : Option (List Char) :=
  if cs.head? = some '0' ∧ cs.length ≠ 1 then none else digitRun? isAsciiDigit cs

/-- The number that digits spell in a base that is a power of two. -/
def baseValue (base : Nat) (digits : List Char) : Nat :=
  digits.foldl (fun n c => n * base + (hexValue? c).getD 0) 0

/-- A digit of a base up to sixteen. -/
def isDigitOf (base : Nat) (c : Char) : Bool := (hexValue? c).any (· < base)

/-- The value of a whole number. -/
def integerValue? : List Char → Option Int
  | '0' :: 'x' :: cs => (digitRun? (isDigitOf 16) cs).map fun ds => baseValue 16 ds
  | '0' :: 'o' :: cs => (digitRun? (isDigitOf 8) cs).map fun ds => baseValue 8 ds
  | '0' :: 'b' :: cs => (digitRun? (isDigitOf 2) cs).map fun ds => baseValue 2 ds
  | cs =>
    let (negative, cs) := Decimal.takeSign cs
    (wholeDigits? cs).map fun ds => Decimal.signed negative (digitsValue ds)

/-- A whole number, in the signed 64-bit range. -/
def integer? (cs : List Char) : Option Int := (integerValue? cs).filter Decimal.fits

/-- A character of the part of a number before its point or its exponent. -/
def isRunChar (c : Char) : Bool := isAsciiDigit c || c == '_'

/-- The exponent after its mark; none spells zero. -/
def exponent? : List Char → Option Int
  | [] => some 0
  | c :: cs =>
    let (negative, cs) := Decimal.takeSign cs
    if c = 'e' ∨ c = 'E' then
      (digitRun? isAsciiDigit cs).map fun ds => Decimal.signed negative (digitsValue ds)
    else none

/-- The value of a number with a fraction or an exponent or both. -/
def decimal? (cs : List Char) : Option Float := do
  let (negative, cs) := Decimal.takeSign cs
  let whole ← wholeDigits? (cs.takeWhile isRunChar)
  match cs.dropWhile isRunChar with
  | [] => none
  | '.' :: rest =>
    let fraction ← digitRun? isAsciiDigit (rest.takeWhile isRunChar)
    let e ← exponent? (rest.dropWhile isRunChar)
    some (Decimal.signedDouble negative
      (Decimal.double (digitsValue (whole ++ fraction)) (e - fraction.length)))
  | rest =>
    let e ← exponent? rest
    some (Decimal.signedDouble negative (Decimal.double (digitsValue whole) e))

/-- Infinity or no number, by name. -/
def namedFloat? (cs : List Char) : Option Float :=
  let (negative, cs) := Decimal.takeSign cs
  if cs = ['i', 'n', 'f'] then some (Decimal.signedDouble negative (1.0 / 0.0))
  else if cs = ['n', 'a', 'n'] then some (0.0 / 0.0)
  else none

/-- A number that is not whole. One that is too large is refused, one that is too small is not. -/
def float? (cs : List Char) : Option Float :=
  (decimal? cs).filter (fun x => !(x == 1.0 / 0.0)) <|> namedFloat? cs

/-- A truth value. -/
def boolean? (cs : List Char) : Option Bool :=
  if cs = "true".toList then some true
  else if cs = "false".toList then some false
  else none

/-! ### Scalars -/

/-- The longest word, and what follows it. A space after a date joins it to a time. -/
def word (cs : List Char) : List Char × List Char :=
  let first := cs.span isWordChar
  match first with
  | (w, ' ' :: d :: rest) =>
    if date? w == some [] && isAsciiDigit d then
      let time := (d :: rest).span isWordChar
      (w ++ ' ' :: time.1, time.2)
    else first
  | _ => first

/-- The value of a word. -/
def scalar? (w : List Char) : Option Value :=
  if isMoment w then some (.moment (String.ofList w))
  else (boolean? w).map .boolean <|> (integer? w).map .integer <|> (float? w).map .float

end Sieve.Toml
