import Mathlib
import Sieve.Instant.Text
import Sieve.Proofs.Decimal.Numerals
import Sieve.Proofs.Instant.Calendar
import Sieve.Proofs.Text.Runs

/-!
# Instants read back from their text

An instant is written in one form and read from four. The written form is the first of the four
that is tried, as long as the year has four digits: each number in it has a fixed width, and so is
found again where it was put. Reading checks that the instant is in the calendar before it is moved
by its offset, and the move does not leave the calendar.

## Main results

* `fixedNumber?_padded` — a number in a fixed width reads back
* `fraction?_fractionText` — so does the fraction of a second, in whichever width it has
* `read?_text` — an instant reads back from its text
* `isValid_of_read?` — what is read is in the calendar
-/

namespace Sieve.Instant

open Sieve.Text Sieve.Decimal

/-! ### Numbers in a fixed width -/

section Padded

variable {width n : Nat}

theorem isAsciiDigit_of_mem_padded {c : Char} (h : c ∈ padded width n) :
    isAsciiDigit c = true := by
  rcases List.mem_append.1 h with hzero | hdigit
  · rw [List.eq_of_mem_replicate hzero]
    decide
  · exact Numeral.isAsciiDigit_of_mem_toDigits hdigit

theorem length_padded (hwidth : 0 < width) (h : n < 10 ^ width) :
    (padded width n).length = width := by
  have hdigits := (Nat.length_toDigits_le_iff (by decide) hwidth).2 h
  rw [padded, List.length_append, List.length_replicate]
  omega

theorem digitsValue_padded : digitsValue (padded width n) = n := by
  have hzeros : ∀ k : Nat, digitsValue (List.replicate k '0' ++ Nat.toDigits 10 n) = n := by
    intro k
    induction k with
    | zero => exact Numeral.digitsValue_toDigits n
    | succ k ih => exact ih
  exact hzeros _

/-- **A number in a fixed width reads back.** -/
theorem fixedNumber?_padded (hwidth : 0 < width) (h : n < 10 ^ width) (rest : List Char) :
    fixedNumber? width (padded width n ++ rest) = some (n, rest) := by
  have hlength := length_padded hwidth h
  have hall : (padded width n).all isAsciiDigit = true :=
    List.all_eq_true.2 fun _ => isAsciiDigit_of_mem_padded
  rw [fixedNumber?, List.take_left' hlength, List.drop_left' hlength]
  simp [hlength, hall, digitsValue_padded]

/-- A point and at most nine digits are read as so many billionths. -/
theorem fraction?_padded (hwidth : 0 < width) (hnine : width ≤ 9) (h : n < 10 ^ width) :
    fraction? ('.' :: padded width n ++ ['Z']) = some (n * 10 ^ (9 - width), ['Z']) := by
  have hlength := length_padded hwidth h
  have hdigits : ∀ c ∈ padded width n, isAsciiDigit c = true :=
    fun _ => isAsciiDigit_of_mem_padded
  have hend : ∀ c ∈ ['Z'].head?, isAsciiDigit c = false := by
    rintro c ⟨⟩
    decide
  have hne : (padded width n).isEmpty = false := by
    rw [List.isEmpty_eq_false_iff, ← List.length_pos_iff]
    omega
  have hvalue : nanoValue (padded width n) = n * 10 ^ (9 - width) := by
    rw [nanoValue, List.take_of_length_le (by omega), digitsValue_padded, hlength, Nat.pow_eq]
  rw [List.cons_append, fraction?, takeWhile_append_of_head? hdigits hend,
    dropWhile_append_of_head? hdigits hend, hne, hvalue]
  rfl

end Padded

/-- **The fraction of a second reads back**, in whichever width it is written. -/
theorem fraction?_fractionText {nano : Nat} (h : nano < 10 ^ 9) :
    fraction? (fractionText nano ++ ['Z']) = some (nano, ['Z']) := by
  rw [fractionText]
  split
  · next hzero =>
    rw [hzero]
    rfl
  · split
    · have hmillis : nano / 1000000 * 10 ^ (9 - 3) = nano := by omega
      rw [fraction?_padded (by decide) (by decide) (by omega), hmillis]
    · split
      · have hmicros : nano / 1000 * 10 ^ (9 - 6) = nano := by omega
        rw [fraction?_padded (by decide) (by decide) (by omega), hmicros]
      · rw [fraction?_padded (by decide) (by decide) h, Nat.sub_self, Nat.pow_zero, Nat.mul_one]

/-! ### The written form -/

/-- A reader whose first piece is there goes on behind it. -/
theorem bind_eq_of_eq_some {α β : Type} {x : Option α} {f : α → Option β} {a : α} {r : Option β}
    (hx : x = some a) (hr : f a = r) : (x >>= f) = r := by
  rw [hx]
  exact hr

section Written

variable {t : Instant}

/-- A year of up to four digits has no sign. -/
theorem yearText_natCast {year : Nat} (h : year < 10 ^ 4) : yearText year = padded 4 year := by
  rw [yearText, if_pos (by omega), Int.toNat_natCast]

/-- No blanks stand around the written form. -/
theorem trimChars_chars (hlow : 0 ≤ t.date.year) (hhigh : t.date.year ≤ 9999) :
    trimChars t.chars = t.chars := by
  obtain ⟨year, hyear⟩ := Int.eq_ofNat_of_zero_le hlow
  have hfour : year < 10 ^ 4 := by omega
  obtain ⟨c, cs, hcons⟩ := List.exists_cons_of_length_pos
    (show 0 < (padded 4 year).length by rw [length_padded (by decide) hfour]; decide)
  have hdigit : isAsciiDigit c = true :=
    isAsciiDigit_of_mem_padded (hcons ▸ List.mem_cons_self)
  have hhead : ∀ d ∈ t.chars.head?, isBlank d = false := by
    rw [chars, hyear, yearText_natCast hfour, hcons]
    rintro d ⟨⟩
    exact isBlank_of_isIdentRest (isIdentRest_of_isAsciiDigit hdigit)
  have hlast : ∀ d ∈ t.chars.getLast?, isBlank d = false := by
    rw [chars, List.getLast?_concat]
    rintro d ⟨⟩
    decide
  have hne : t.chars ≠ [] := by simp [chars]
  have htrim : trimChars ([] ++ (t.chars ++ [])) = t.chars :=
    trimChars_append nofun nofun hne hhead hlast
  rwa [List.append_nil, List.nil_append] at htrim

/-- **The written form is read as RFC 3339.** -/
theorem ofRfc3339?_chars (h : t.isValid = true) (hlow : 0 ≤ t.date.year)
    (hhigh : t.date.year ≤ 9999) : ofRfc3339? t.chars = some t := by
  obtain ⟨hdate, hhour, hminute, hsecond, hnano⟩ := t.isValid_iff.1 h
  obtain ⟨-, hmonth, -, hday⟩ := Date.bounds_of_isValid hdate
  obtain ⟨year, hyear⟩ := Int.eq_ofNat_of_zero_le hlow
  have hfour : year < 10 ^ 4 := by omega
  have htwo : 0 < 2 := by decide
  have hself : (⟨⟨year, t.date.month, t.date.day⟩, t.hour, t.minute, t.second, t.nano⟩ : Instant) =
      t := by rw [← hyear]
  rw [chars, hyear, yearText_natCast hfour]
  simp only [List.append_assoc, List.cons_append]
  unfold ofRfc3339?
  -- the date
  refine bind_eq_of_eq_some (fixedNumber?_padded (by decide) hfour _) ?_
  refine bind_eq_of_eq_some rfl (bind_eq_of_eq_some (fixedNumber?_padded htwo (by omega) _) ?_)
  refine bind_eq_of_eq_some rfl (bind_eq_of_eq_some (fixedNumber?_padded htwo (by omega) _) ?_)
  -- the time of day
  refine bind_eq_of_eq_some rfl (bind_eq_of_eq_some (fixedNumber?_padded htwo (by omega) _) ?_)
  refine bind_eq_of_eq_some rfl (bind_eq_of_eq_some (fixedNumber?_padded htwo (by omega) _) ?_)
  refine bind_eq_of_eq_some rfl (bind_eq_of_eq_some (fixedNumber?_padded htwo (by omega) _) ?_)
  refine bind_eq_of_eq_some (fraction?_fractionText hnano) (bind_eq_of_eq_some rfl ?_)
  refine bind_eq_of_eq_some (if_pos (hself ▸ h)) ?_
  rw [hself]
  exact congrArg some (shift_zero h)

/-- **An instant reads back from its text**, as long as its year has four digits. -/
theorem read?_text (h : t.isValid = true) (hlow : 0 ≤ t.date.year) (hhigh : t.date.year ≤ 9999) :
    read? t.text = some t := by
  rw [read?, text, String.toList_ofList, trimChars_chars hlow hhigh,
    ofRfc3339?_chars h hlow hhigh]
  rfl

end Written

/-! ### What is read -/

theorem digitsValue_lt {cs : List Char} (h : ∀ c ∈ cs, isAsciiDigit c = true) :
    digitsValue cs < 10 ^ cs.length := by
  induction cs using List.reverseRecOn with
  | nil => decide
  | append_singleton cs c ih =>
    have hlt := ih fun d hd => h d (List.mem_append_left _ hd)
    have hc : digitValue c ≤ 9 := by
      have hdigit := h c (List.mem_append_right _ List.mem_cons_self)
      rw [isAsciiDigit, Bool.and_eq_true, decide_eq_true_iff, decide_eq_true_iff] at hdigit
      exact Nat.sub_le_sub_right hdigit.2 _
    rw [digitsValue, List.foldl_append, List.length_append]
    show digitsValue cs * 10 + digitValue c < 10 ^ (cs.length + 1)
    omega

/-- A number of so many digits is below the power of ten. -/
theorem lt_of_fixedNumber? {width n : Nat} {cs rest : List Char}
    (h : fixedNumber? width cs = some (n, rest)) : n < 10 ^ width := by
  rw [fixedNumber?] at h
  split at h
  · next hdigits =>
    obtain ⟨hlength, hall⟩ : (cs.take width).length = width ∧
        (cs.take width).all isAsciiDigit = true := by
      simpa only [Bool.and_eq_true, decide_eq_true_iff] using hdigits
    have hlt := digitsValue_lt (List.all_eq_true.1 hall)
    obtain ⟨rfl, -⟩ := Prod.mk.inj (Option.some.inj h)
    rwa [hlength] at hlt
  · cases h

/-- What holds of all that a reader gives behind its first piece holds of all that it gives. -/
theorem forall_bind {α β : Type} {x : Option α} {f : α → Option β} {P : β → Prop}
    (h : ∀ a, x = some a → ∀ b, f a = some b → P b) : ∀ b, (x >>= f) = some b → P b := by
  intro b hb
  obtain ⟨a, ha, hb⟩ := Option.bind_eq_some_iff.1 hb
  exact h a ha b hb

theorem eq_of_checked? {t u : Instant} (h : checked? t = some u) : t = u ∧ u.isValid = true := by
  rw [checked?] at h
  split at h
  · next hvalid =>
    obtain rfl : t = u := Option.some.inj h
    exact ⟨rfl, hvalid⟩
  · cases h

theorem isValid_of_ofRfc3339? {cs : List Char} :
    ∀ t, ofRfc3339? cs = some t → t.isValid = true := by
  unfold ofRfc3339?
  refine forall_bind fun ⟨year, _⟩ hyear => ?_
  -- what the other pieces are does not matter
  iterate 12 refine forall_bind fun _ _ => ?_
  refine forall_bind fun u hu t ht => ?_
  obtain ⟨rfl, hvalid⟩ := eq_of_checked? hu
  have hfour : year < 10 ^ 4 := lt_of_fixedNumber? hyear
  rw [← Option.some.inj ht]
  exact isValid_shift hvalid _ (by dsimp only [Date.yearRange]; omega)
    (by dsimp only [Date.yearRange]; omega)

theorem isValid_of_ofLocal? {mark? : List Char → Option (List Char)} {cs : List Char} :
    ∀ t, ofLocal? mark? cs = some t → t.isValid = true := by
  unfold ofLocal?
  iterate 9 refine forall_bind fun _ _ => ?_
  exact fun t ht => (eq_of_checked? ht).2

theorem isValid_of_ofDate? {cs : List Char} : ∀ t, ofDate? cs = some t → t.isValid = true := by
  unfold ofDate?
  iterate 2 refine forall_bind fun _ _ => ?_
  exact fun t ht => (eq_of_checked? ht).2

/-- **What is read is in the calendar.** -/
theorem isValid_of_read? {s : String} {t : Instant} (h : read? s = some t) : t.isValid = true := by
  simp only [read?, Option.orElse_eq_orElse, Option.orElse_eq_or, Option.or_eq_some_iff] at h
  rcases h with h | ⟨-, h | ⟨-, h | ⟨-, h⟩⟩⟩
  · exact isValid_of_ofRfc3339? t h
  · exact isValid_of_ofLocal? t h
  · exact isValid_of_ofLocal? t h
  · exact isValid_of_ofDate? t h

end Sieve.Instant
