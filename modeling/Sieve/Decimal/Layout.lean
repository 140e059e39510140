import Sieve.Decimal.Shortest

/-!
# Writing doubles

A layout says when a double is written positionally, what follows a whole number, and which of
two equally short decimals is taken. The digits are always the shortest that read back.

## Main definitions

* `Layout.data` — the layout of numbers in JSON text
* `Layout.plain` — the layout of literals shown to people: never an exponent
* `Layout.write` — the text of a double in a layout
-/

namespace Sieve.Decimal

/-- How a double is laid out. -/
structure Layout where
  /-- Which exponents of the leading digit are written positionally. -/
  positional : Int → Bool
  /-- What is written after a whole number. -/
  wholeSuffix : String
  /-- The choice between two equally short and near decimals. -/
  tie : Tie

/-- Numbers in JSON text: positional for leading exponents from -5 to 15, with a digit after the
point, and with a signed exponent otherwise. -/
def Layout.data : Layout := ⟨fun e => -5 ≤ e && e ≤ 15, ".0", .even⟩

/-- Literals shown to people: always positional, whole numbers without a point. -/
def Layout.plain : Layout := ⟨fun _ => true, "", .up⟩

/-- `n` zeros. -/
def zeros (n : Int) : List Char := List.replicate n.toNat '0'

/-- The digits with the point in its place. -/
def positionalText (wholeSuffix : String) (digits : List Char) (point : Int) : List Char :=
  if point ≤ 0 then '0' :: '.' :: zeros (-point) ++ digits
  else if digits.length ≤ point then
    digits ++ zeros (point - digits.length) ++ wholeSuffix.toList
  else digits.take point.toNat ++ '.' :: digits.drop point.toNat

/-- One digit before the point, then the signed exponent. -/
def scientificText (digits : List Char) (point : Int) : List Char :=
  let fraction := match digits.drop 1 with
    | [] => []
    | ds => '.' :: ds
  let e := point - 1
  digits.take 1 ++ fraction ++ 'e' :: (if e < 0 then '-' else '+') :: Nat.toDigits 10 e.natAbs

/-- The text of a double without its sign. -/
def Layout.magnitude (l : Layout) (x : Float) : List Char :=
  if x.isNaN then "NaN".toList
  else if x.isInf then "inf".toList
  else if x == 0 then '0' :: l.wholeSuffix.toList
  else
    let (digits, point) := (Binary.ofBits x.toBits).shortest l.tie
    if l.positional (point - 1) then positionalText l.wholeSuffix digits point
    else scientificText digits point

/-- A double with its sign bit set, NaN apart. -/
def isNegative (x : Float) : Bool := !x.isNaN && Nat.pow 2 63 ≤ x.toBits.toNat

/-- The text of a double. -/
def Layout.write (l : Layout) (x : Float) : String :=
  String.ofList ((if isNegative x then ['-'] else []) ++ l.magnitude x)

end Sieve.Decimal
