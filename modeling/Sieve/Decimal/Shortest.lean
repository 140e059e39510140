/-!
# The shortest decimal of a binary fraction

A positive double is a mantissa `m` and a binary exponent `q`, and stands for `m · 2 ^ q`. All
reals nearer to it than to its neighbours read back as the same double; the two borders belong to
it when `m` is even. Among the decimals in that interval the shortest is wanted, and among those
the nearest to the double itself.

For one digit, two digits and so on, the two neighbours of the double on that decimal grid are
tried, in exact arithmetic on natural numbers. If any point of a grid lies in the interval, one of
these two does, so the first grid with a hit has the fewest digits.

## Main definitions

* `Binary` — mantissa and exponent of a positive double, and which border is nearer
* `Tie` — which of two equally near decimals wins
* `Binary.shortest` — digits and the position of the point
-/

namespace Sieve.Decimal

/-- A positive double `mantissa · 2 ^ exponent`. It is `narrow` when the double below it has a
smaller binary exponent: then the lower border is half as far away as the upper one. -/
structure Binary where
  mantissa : Nat
  exponent : Int
  narrow : Bool
deriving Repr, DecidableEq

/-- The rule for a double that lies exactly between two decimals of equal length. -/
inductive Tie where
  /-- The decimal whose last digit is even. -/
  | even
  /-- The larger decimal. -/
  | up
deriving Repr, DecidableEq

/-- The mantissa and exponent in the bits of a finite double, sign left out. -/
def Binary.ofBits (bits : UInt64) : Binary :=
  let fraction := bits.toNat % Nat.pow 2 52
  let biased : Nat := bits.toNat / Nat.pow 2 52 % Nat.pow 2 11
  if biased = 0 then ⟨fraction, -1074, false⟩
  else ⟨Nat.pow 2 52 + fraction, (biased : Int) - 1075, fraction = 0 && biased > 1⟩

/-- Number of decimal digits. -/
def digitCount (n : Nat) : Nat := (Nat.toDigits 10 n).length

/-- The exponent `e` with `10 ^ e ≤ num / den < 10 ^ (e + 1)`, for positive arguments. -/
def leadingExponent (num den : Nat) : Int :=
  let e : Int := (digitCount num : Int) - digitCount den
  let reaches :=
    if 0 ≤ e then den * Nat.pow 10 e.toNat ≤ num else den ≤ num * Nat.pow 10 (-e).toNat
  if reaches then e else e - 1

/-- Four times the double as a fraction: numerator factor and denominator. With the factor four,
both borders are whole multiples of the numerator factor. -/
def Binary.quarters (b : Binary) : Nat × Nat :=
  let e := b.exponent - 2
  if 0 ≤ e then (Nat.pow 2 e.toNat, 1) else (1, Nat.pow 2 (-e).toNat)

/-- The point of the grid `10 ^ k` that stands for the double, if one of its two neighbours there
reads back. Of two that do, the nearer one is taken. -/
def Binary.onGrid (b : Binary) (tie : Tie) (k : Int) : Option Nat :=
  let (factor, den) := b.quarters
  let scale := if 0 ≤ k then factor else factor * Nat.pow 10 (-k).toNat
  let step := if 0 ≤ k then den * Nat.pow 10 k.toNat else den
  let value := 4 * b.mantissa * scale
  let low := (4 * b.mantissa - if b.narrow then 1 else 2) * scale
  let high := (4 * b.mantissa + 2) * scale
  let reads (p : Nat) : Bool :=
    if b.mantissa % 2 = 0 then low ≤ p * step && p * step ≤ high
    else low < p * step && p * step < high
  let below := value / step
  let above := below + 1
  let upward : Bool :=
    match compare (value - below * step) (above * step - value) with
    | .lt => false
    | .gt => true
    | .eq => match tie with
      | .even => below % 2 = 1
      | .up => true
  match reads below, reads above with
  | false, false => none
  | true, false => some below
  | false, true => some above
  | true, true => some (if upward then above else below)

/-- The digits of a positive double, without zeros at the end, and the place of the point: the
value is `0.d₁d₂…  · 10 ^ point`. Seventeen digits always suffice. -/
def Binary.shortest (b : Binary) (tie : Tie) : List Char × Int :=
  let (factor, den) := b.quarters
  let lead := leadingExponent (4 * b.mantissa * factor) (4 * den)
  let grids := (List.range 17).map fun (n : Nat) => lead - n
  let hit := grids.findSome? fun k => (b.onGrid tie k).map fun p => (p, k)
  match hit with
  | none => (['0'], 1)
  | some (p, k) =>
    let digits := Nat.toDigits 10 p
    ((digits.reverse.dropWhile (· == '0')).reverse, digits.length + k)

end Sieve.Decimal
