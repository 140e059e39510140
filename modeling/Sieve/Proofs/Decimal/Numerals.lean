import Mathlib.Data.List.TakeDrop
import Mathlib.Data.List.TakeWhile
import Sieve.Decimal.Reading

/-!
# Numerals

A numeral is an optional minus, digits, and perhaps a point with more digits behind it. Numerals
are what attributes and defaults take for numbers. Each has a value as a double, and a whole number
in the signed 64-bit range reads back from its decimal text.

## Main definitions

* `Numeral`, `Numeral.text` — a numeral by its parts, and as it is written
* `Numeral.ofInt` — the numeral of a whole number

## Main results

* `Numeral.exists_float?_text` — every numeral has a value as a double
* `Numeral.int?_text` — which numerals are read as whole numbers
* `int?_toString` — a whole number reads back
-/

namespace Sieve.Decimal

open Sieve.Text

/-- A numeral; without digits behind a point, it has no point either. -/
structure Numeral where
  negative : Bool
  whole : List Char
  fraction : List Char
  whole_ne_nil : whole ≠ []
  isAsciiDigit_whole : ∀ c ∈ whole, isAsciiDigit c = true
  isAsciiDigit_fraction : ∀ c ∈ fraction, isAsciiDigit c = true

theorem ne_of_isAsciiDigit {c d : Char} (hc : isAsciiDigit c = true)
    (hd : isAsciiDigit d = false) : c ≠ d := by
  rintro rfl
  rw [hc] at hd
  cases hd

namespace Numeral

/-- The point and what follows it, if there is a fraction. -/
def fractionText (n : Numeral) : List Char := if n.fraction = [] then [] else '.' :: n.fraction

/-- The numeral as it is written. -/
def text (n : Numeral) : List Char :=
  (if n.negative then ['-'] else []) ++ (n.whole ++ n.fractionText)

variable (n : Numeral)

theorem exists_head_whole : ∃ c cs, n.whole = c :: cs ∧ isAsciiDigit c = true := by
  obtain ⟨c, cs, heq⟩ := List.exists_cons_of_ne_nil n.whole_ne_nil
  exact ⟨c, cs, heq, n.isAsciiDigit_whole c (by rw [heq]; exact List.mem_cons_self)⟩

theorem isAsciiDigit_of_mem_text {c : Char} (h : c ∈ n.text) :
    isAsciiDigit c = true ∨ c = '-' ∨ c = '.' := by
  rw [text, List.mem_append, List.mem_append] at h
  rcases h with h | h | h
  · split at h
    · exact .inr (.inl (List.mem_singleton.1 h))
    · cases h
  · exact .inl (n.isAsciiDigit_whole c h)
  · rw [fractionText] at h
    split at h
    · cases h
    · rcases List.mem_cons.1 h with rfl | h
      · exact .inr (.inr rfl)
      · exact .inl (n.isAsciiDigit_fraction c h)

theorem notMem_text {c : Char} (hdigit : isAsciiDigit c = false) (hminus : c ≠ '-')
    (hpoint : c ≠ '.') : c ∉ n.text := by
  intro h
  rcases n.isAsciiDigit_of_mem_text h with h | h | h
  · rw [h] at hdigit
    cases hdigit
  · exact hminus h
  · exact hpoint h

/-- The sign comes off the front of a numeral. -/
theorem takeSign_text : takeSign n.text = (n.negative, n.whole ++ n.fractionText) := by
  obtain ⟨c, cs, heq, hc⟩ := n.exists_head_whole
  have hminus : c ≠ '-' := ne_of_isAsciiDigit hc (by decide)
  have hplus : c ≠ '+' := ne_of_isAsciiDigit hc (by decide)
  rw [text]
  cases n.negative with
  | true => rfl
  | false =>
    rw [heq]
    simp [takeSign, hminus, hplus]

/-- The digits in front of the point. -/
theorem span_whole : (n.whole ++ n.fractionText).span isAsciiDigit = (n.whole, n.fractionText) := by
  have hall : ∀ c ∈ n.whole, isAsciiDigit c = true := n.isAsciiDigit_whole
  rw [List.span_eq_takeWhile_dropWhile, List.takeWhile_append_of_pos hall,
    List.dropWhile_append_of_pos hall, fractionText]
  split
  · simp
  · rw [List.takeWhile_cons_of_neg (by decide), List.dropWhile_cons_of_neg (by decide),
      List.append_nil]

/-- The digits behind the point. -/
theorem span_fraction : n.fraction.span isAsciiDigit = (n.fraction, []) := by
  rw [List.span_eq_takeWhile_dropWhile]
  exact Prod.ext (List.takeWhile_eq_self_iff.2 n.isAsciiDigit_fraction)
    (List.dropWhile_eq_nil_iff.2 n.isAsciiDigit_fraction)

/-- **Every numeral has a value as a double.** -/
theorem exists_float?_text : ∃ x, float? n.text = some x := by
  have hwhole : n.whole.isEmpty = false := by simpa using n.whole_ne_nil
  rw [float?]
  simp only [n.takeSign_text, n.span_whole, hwhole, Bool.false_and, Bool.false_eq_true, if_false]
  by_cases h : n.fraction = []
  · simp [fractionText, h]
  · simp only [fractionText, if_neg h, n.span_fraction]
    exact ⟨_, rfl⟩

/-- A numeral is read as a whole number if it has no point and is in the 64-bit range. -/
theorem int?_text : int? n.text =
    if n.fraction = [] then
      if fits (signed n.negative (digitsValue n.whole)) then
        some (signed n.negative (digitsValue n.whole)) else none
    else none := by
  have hall : n.whole.all isAsciiDigit = true := List.all_eq_true.2 n.isAsciiDigit_whole
  have hwhole : n.whole.isEmpty = false := by simpa using n.whole_ne_nil
  rw [int?, n.takeSign_text]
  by_cases h : n.fraction = []
  · simp [fractionText, h, hall, hwhole]
  · simp [fractionText, h, show isAsciiDigit '.' = false by decide]

/-! ### Whole numbers -/

theorem isAsciiDigit_of_mem_toDigits {k : Nat} {c : Char} (h : c ∈ Nat.toDigits 10 k) :
    isAsciiDigit c = true := by
  have hdigit := Nat.isDigit_of_mem_toDigits (by decide) (by decide) h
  simpa [Char.isDigit, isAsciiDigit, Char.le_def] using hdigit

/-- The numeral of a whole number. -/
def ofInt (i : Int) : Numeral where
  negative := decide (i < 0)
  whole := Nat.toDigits 10 i.natAbs
  fraction := []
  whole_ne_nil := Nat.toDigits_ne_nil
  isAsciiDigit_whole _ := isAsciiDigit_of_mem_toDigits
  isAsciiDigit_fraction := by simp

/-- A whole number shows itself as its numeral. -/
theorem toList_toString (i : Int) : (toString i).toList = (ofInt i).text := by
  rw [Int.toString_eq_repr, Int.repr_eq_if]
  by_cases h : 0 ≤ i
  · have habs : i.toNat = i.natAbs := by omega
    simp [ofInt, text, fractionText, h, Int.not_lt.2 h, habs, Nat.repr_eq_ofList_toDigits]
  · have habs : (-i).toNat = i.natAbs := by omega
    simp [ofInt, text, fractionText, h, Int.not_le.1 h, habs, Nat.repr_eq_ofList_toDigits]

theorem digitsValue_toDigits (k : Nat) : digitsValue (Nat.toDigits 10 k) = k := by
  have hvalue := Nat.ofDigitChars_ten_toDigits (n := k)
  rw [Nat.ofDigitChars_eq_foldl] at hvalue
  simpa [digitsValue, digitValue, Nat.mul_comm] using hvalue

end Numeral

/-- **A whole number in the 64-bit range reads back.** -/
theorem int?_toString {i : Int} (h : fits i = true) : int? (toString i).toList = some i := by
  have hsigned : signed (Numeral.ofInt i).negative (digitsValue (Numeral.ofInt i).whole) = i := by
    simp only [Numeral.ofInt, Numeral.digitsValue_toDigits, signed]
    split
    · next hneg =>
      have := of_decide_eq_true hneg
      omega
    · next hneg =>
      have := of_decide_eq_false (Bool.eq_false_iff.2 hneg)
      omega
  rw [Numeral.toList_toString, Numeral.int?_text, hsigned, h]
  rfl

end Sieve.Decimal
