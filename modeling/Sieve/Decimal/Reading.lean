import Sieve.Text.Basic

/-!
# Reading numbers

Reading the text of a number, in two forms: whole numbers of 64 bits, and doubles. A decimal
becomes the nearest double; one too large becomes infinity.

## Main definitions

* `Decimal.fits`, `Decimal.fitsUnsigned` — the 64-bit ranges
* `Decimal.int?` — an optional sign and digits, in the signed 64-bit range
* `Decimal.double` — the double nearest to `digits · 10 ^ exponent`
* `Decimal.float?` — a double: sign, digits around an optional point, optional exponent
* `Decimal.scaled?` — the double that a JSON reader makes of a significand and an exponent
-/

namespace Sieve.Decimal

open Sieve.Text

/-- In the signed 64-bit range. -/
def fits (i : Int) : Bool := -(Nat.pow 2 63 : Int) ≤ i && i < (Nat.pow 2 63 : Int)

/-- In the unsigned 64-bit range. -/
def fitsUnsigned (i : Int) : Bool := 0 ≤ i && i < (Nat.pow 2 64 : Int)

/-- Splits off a sign: `true` for minus. -/
def takeSign : List Char → Bool × List Char
  | '-' :: cs => (true, cs)
  | '+' :: cs => (false, cs)
  | cs => (false, cs)

/-- The number with its sign. -/
def signed (negative : Bool) (n : Nat) : Int := if negative then -n else n

/-- A whole number: optional sign and digits, in the signed 64-bit range. -/
def int? (cs : List Char) : Option Int :=
  let (negative, digits) := takeSign cs
  if digits.isEmpty || !digits.all isAsciiDigit then none
  else
    let i := signed negative (digitsValue digits)
    if fits i then some i else none

/-- The double nearest to `significand · 10 ^ exponent`. A decimal whose leading digit lies beyond
every double is decided at once, so that no huge power is computed. -/
def double (significand : Nat) (exponent : Int) : Float :=
  let lead := ((Nat.toDigits 10 significand).length : Int) + exponent
  if significand = 0 || lead < -330 then 0.0
  else if lead > 310 then Float.ofScientific 1 false 400
  else if exponent < 0 then Float.ofScientific significand true (-exponent).toNat
  else Float.ofScientific significand false exponent.toNat

/-- The double with its sign, which zero keeps too. -/
def signedDouble (negative : Bool) (x : Float) : Float := if negative then -x else x

/-- The exponent after its mark: optional sign and digits, to the end of the text. -/
def exponent? (cs : List Char) : Option Int :=
  let (negative, digits) := takeSign cs
  if digits.isEmpty || !digits.all isAsciiDigit then none
  else some (signed negative (digitsValue digits))

/-- A double: optional sign, digits with an optional point (one side of which may be empty, but not
both), optional exponent. -/
def float? (cs : List Char) : Option Float :=
  let (negative, cs) := takeSign cs
  let (whole, rest) := cs.span isAsciiDigit
  let (fraction, rest) := match rest with
    | '.' :: r => r.span isAsciiDigit
    | r => ([], r)
  let exponent := match rest with
    | [] => some 0
    | c :: r => if c == 'e' || c == 'E' then exponent? r else none
  if whole.isEmpty && fraction.isEmpty then none
  else exponent.map fun e =>
    signedDouble negative (double (digitsValue (whole ++ fraction)) (e - fraction.length))

/-- `10 ^ n` as a double, for `n ≤ 308`. -/
def powerOfTen (n : Nat) : Float := Float.ofScientific 1 false n

/-- The double made of a 64-bit significand and a decimal exponent by one division or
multiplication, after steps of `10 ^ 308` for very small values; `none` beyond the largest double.
For significands and exponents of everyday size this is the nearest double. -/
def scaled? (significand : Nat) (exponent : Int) : Option Float :=
  let x := Float.ofNat significand
  if significand = 0 then some 0.0
  else if exponent > 308 then none
  else if exponent ≥ 0 then
    let y := x * powerOfTen exponent.toNat
    if y.isInf then none else some y
  else
    let e := exponent.natAbs
    if e ≤ 308 then some (x / powerOfTen e)
    else if e ≤ 616 then some (x / powerOfTen 308 / powerOfTen (e - 308))
    else some 0.0

end Sieve.Decimal
