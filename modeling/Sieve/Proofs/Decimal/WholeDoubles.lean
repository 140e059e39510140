import Mathlib
import Sieve.Decimal.Reading

/-!
# Whole numbers as doubles

A whole number in the unsigned 64-bit range has a finite double. The double is told by a mantissa
and a binary exponent, and it is infinite only if the exponent is beyond 971. Rounding the mantissa
to its 53 bits raises the exponent by no more than the bits that are dropped, and a number of 64
bits does not have as many.

## Main results

* `isFinite_pack` — a double with a small exponent is finite
* `smallExponent_round` — rounding raises the exponent by the bits that it drops
* `isFinite_ofInt` — a whole number in the unsigned 64-bit range has a finite double
-/

namespace Sieve.Decimal

open Float.Model (Format totalExponent UnpackedFloat)
open Float.Model.UnpackedFloat

/-! ### Doubles with a small exponent -/

/-- Zero, or a mantissa with an exponent so small that the double is finite. -/
def SmallExponent : UnpackedFloat → Prop
  | .zero _ => True
  | .finite _ _ e _ => e < 971
  | .infinity _ | .notANumber => False

/-- Only an exponent with all its bits set is that of infinity. -/
theorem isFinite_unpack {b : BitVec Format.binary64.numBits}
    (h : unpackExponent b ≠ -1#(Format.binary64.exponentBits)) :
    (unpack Format.binary64 b).isFinite = true := by
  rw [unpack, if_neg h]
  split
  · split <;> rfl
  · rfl

/-- **A double with a small exponent is finite.** -/
theorem isFinite_pack {x : UnpackedFloat} (h : SmallExponent x) :
    (Float.Model.pack x).isFinite = true := by
  refine isFinite_unpack (b := pack Format.binary64 x) ?_
  cases x with
  | infinity s => exact h.elim
  | notANumber => exact h.elim
  | zero s =>
    rw [pack, packedZero, unpackExponent_packComponents]
    decide
  | finite s m e hm =>
    have he : e < 971 := h
    have hbits : 2 ^ Format.binary64.exponentBits = 2048 := by decide
    have hbias : (Format.binary64.exponentBias : Int) = 1023 := by decide
    have hwidth : (Format.binary64.mantissaBitsWithoutImplicit : Int) = 52 := rfl
    rw [pack, hbits, hbias, hwidth, if_neg (by omega)]
    split
    · rw [unpackExponent_packComponents]
      intro heq
      have hnat := congrArg BitVec.toNat heq
      have hones : (-1#(Format.binary64.exponentBits)).toNat = 2047 := by decide
      rw [BitVec.toNat_ofNat, hbits, hones, Nat.mod_eq_of_lt (by omega)] at hnat
      omega
    · rw [unpackExponent_packComponents]
      decide

/-! ### Rounding -/

theorem mantissa_shiftRight_le (em : ExtendedMantissa) (k : Nat) :
    (em >>> k).mantissa ≤ em.mantissa := by
  induction k with
  | zero => exact Nat.le_refl _
  | succ k ih => exact Nat.le_trans (Nat.div_le_self (em >>> k).mantissa 2) ih

theorem roundedMantissa_le (em : ExtendedMantissa) : em.roundedMantissa ≤ em.mantissa + 1 := by
  obtain ⟨m, round, sticky⟩ := em
  rw [ExtendedMantissa.roundedMantissa]
  cases round <;> cases sticky <;>
    simp only [ExtendedMantissa.accuracy, Accuracy.roundToNearestEven] <;> omega

/-- The exponent after a shift to the 53 bits of a mantissa is what it was, or it makes up for the
bits that are dropped, or it is the least there is. -/
theorem exponent_shiftToTargetExponent_le {m n : Nat} (hm : m < 2 ^ n) (e : Int) (a : Accuracy) :
    (shiftToTargetExponent Format.binary64 m e a).2 ≤ max e (max (n + e - 52) (-1074)) := by
  have hlog : m.log2 ≤ n := by
    by_cases h : m = 0
    · simp [h]
    · exact Nat.le_of_lt ((Nat.log2_lt h).2 hm)
  have htarget : Format.binary64.targetExponent (totalExponent m e) =
      max (m.log2 + 1 + e - 53) (-1074) := rfl
  have hshift : (shiftToTargetExponent Format.binary64 m e a).2 =
      e + (Format.binary64.targetExponent (totalExponent m e) - e).toNat := rfl
  rw [hshift, htarget]
  omega

/-- **Rounding a mantissa of few bits leaves the exponent small.** -/
theorem smallExponent_round {m : Nat} (hm : m < 2 ^ 200) {e : Int} (he : e ≤ 200) (s : Sign) :
    SmallExponent (roundWithAccuracy Format.binary64 s m e .exact) := by
  have hfirst := exponent_shiftToTargetExponent_le hm e .exact
  have hmantissa : (shiftToTargetExponent Format.binary64 m e .exact).1.roundedMantissa <
      2 ^ 201 := by
    have hle := roundedMantissa_le (shiftToTargetExponent Format.binary64 m e .exact).1
    have hshift : (shiftToTargetExponent Format.binary64 m e .exact).1.mantissa ≤ m :=
      mantissa_shiftRight_le _ _
    omega
  -- a mantissa rounded up may have one bit too many, and is shifted once more
  have hsecond := exponent_shiftToTargetExponent_le hmantissa
    (shiftToTargetExponent Format.binary64 m e .exact).2 .exact
  rw [roundWithAccuracy]
  dsimp only
  split
  · trivial
  · show _ < (971 : Int)
    omega

/-! ### Whole numbers -/

theorem mul_finite (spec : Format) (s t : Sign) {m n : Nat} (hm : 0 < m) (hn : 0 < n) (d e : Int) :
    UnpackedFloat.mul spec (.finite s m d hm) (.finite t n e hn) =
      roundWithAccuracy spec (s * t) (m * n) (d + e) .exact :=
  rfl

theorem smallExponent_ofScientific {n : Nat} (h : n < 2 ^ 64) (hpos : n ≠ 0) :
    SmallExponent (ofScientific Format.binary64 n 0) := by
  have hlog : ¬ (0 : Int) < -(2 ^ Format.binary64.exponentBits + (n.log2 : Int)) := by
    have hbits : (2 ^ Format.binary64.exponentBits : Int) = 2048 := by decide
    omega
  rw [ofScientific, dif_neg hpos, if_neg (by decide), if_neg hlog, if_pos (Int.le_refl 0),
    mul_finite]
  have hwidth : Format.binary64.mantissaBits = 53 := rfl
  refine smallExponent_round ?_ ?_ _
  · rw [hwidth, Nat.shiftLeft_eq]
    simp
    omega
  · rw [hwidth]
    decide

/-- **A whole number beyond the signed 64-bit range, but in the unsigned one, has a finite
double.** -/
theorem isFinite_ofInt {i : Int} (h : fits i = false) (hunsigned : fitsUnsigned i = true) :
    (Float.ofInt i).isFinite = true := by
  obtain ⟨hzero, hlt⟩ : 0 ≤ i ∧ i < 2 ^ 64 := by simpa [fitsUnsigned] using hunsigned
  obtain ⟨n, rfl⟩ := Int.eq_ofNat_of_zero_le hzero
  have hlarge : 2 ^ 63 ≤ n := by
    simp [fits] at h
    omega
  have hdouble : Float.ofInt (n : Int) = ⟨Float.Model.ofScientific n 0⟩ := by
    show Float.ofScientific n false 0 = _
    rw [Float.ofScientific, dif_neg (by omega)]
    rfl
  rw [hdouble]
  exact isFinite_pack (smallExponent_ofScientific (by omega) (by omega))

end Sieve.Decimal
