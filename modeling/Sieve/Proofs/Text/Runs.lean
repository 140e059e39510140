import Mathlib.Data.List.TakeWhile
import Sieve.Text.Basic

/-!
# Runs of characters

A scan takes the characters of a class from the front of a text and stops at the first one that is
in it no more. Where it stops is decided by the run and by the one character behind it, whatever
else follows. The same holds for a scan up to a mark, and for the blanks that trimming leaves out.

## Main results

* `takeWhile_append_of_head?`, `dropWhile_append_of_head?` — a run ends at its last character
* `takeWhile_append_cons`, `dropWhile_append_cons` — no run reaches beyond a character of another
  class
* `takeWhile_ne_append_cons`, `dropWhile_ne_append_cons` — the text in front of a mark, and the text
  from it on
* `trimChars_append` — the blanks around a text
-/

namespace Sieve.Text

/-! ### Runs of a class -/

section

variable {p : Char → Bool} {xs ys : List Char}

theorem takeWhile_append_of_head? (hxs : ∀ c ∈ xs, p c = true)
    (hys : ∀ c ∈ ys.head?, p c = false) : (xs ++ ys).takeWhile p = xs := by
  rw [List.takeWhile_append_of_pos hxs]
  cases ys with
  | nil => simp
  | cons d ds => rw [List.takeWhile_cons_of_neg (by simp [hys d rfl]), List.append_nil]

theorem dropWhile_append_of_head? (hxs : ∀ c ∈ xs, p c = true)
    (hys : ∀ c ∈ ys.head?, p c = false) : (xs ++ ys).dropWhile p = ys := by
  rw [List.dropWhile_append_of_pos hxs]
  cases ys with
  | nil => rfl
  | cons d ds => rw [List.dropWhile_cons_of_neg (by simp [hys d rfl])]

end

section

variable {p : Char → Bool} {c : Char} (hc : p c = false) (xs ys : List Char)

include hc

theorem takeWhile_append_cons : (xs ++ c :: ys).takeWhile p = xs.takeWhile p := by
  induction xs with
  | nil => rw [List.nil_append, List.takeWhile_cons_of_neg (by simp [hc]), List.takeWhile_nil]
  | cons x xs ih => rw [List.cons_append, List.takeWhile_cons, List.takeWhile_cons, ih]

theorem dropWhile_append_cons : (xs ++ c :: ys).dropWhile p = xs.dropWhile p ++ c :: ys := by
  induction xs with
  | nil => rw [List.nil_append, List.dropWhile_cons_of_neg (by simp [hc]), List.dropWhile_nil,
      List.nil_append]
  | cons x xs ih =>
    rw [List.cons_append, List.dropWhile_cons, List.dropWhile_cons, ih]
    split
    · rfl
    · rfl

end

/-! ### Texts up to a mark -/

section

variable {c : Char} {xs : List Char}

theorem beq_eq_false_of_notMem (h : c ∉ xs) : ∀ d ∈ xs, (d == c) = false :=
  fun d hd => beq_eq_false_iff_ne.2 (List.forall_mem_ne'.2 h d hd)

theorem decide_ne_of_notMem (h : c ∉ xs) : ∀ d ∈ xs, decide (d ≠ c) = true :=
  fun d hd => decide_eq_true (List.forall_mem_ne'.2 h d hd)

theorem dropWhile_ne_of_notMem (h : c ∉ xs) : xs.dropWhile (· ≠ c) = [] :=
  List.dropWhile_eq_nil_iff.2 (decide_ne_of_notMem h)

theorem takeWhile_ne_append_cons (h : c ∉ xs) (ys : List Char) :
    (xs ++ c :: ys).takeWhile (· ≠ c) = xs :=
  takeWhile_append_of_head? (decide_ne_of_notMem h) (by simp)

theorem dropWhile_ne_append_cons (h : c ∉ xs) (ys : List Char) :
    (xs ++ c :: ys).dropWhile (· ≠ c) = c :: ys :=
  dropWhile_append_of_head? (decide_ne_of_notMem h) (by simp)

/-- A text is cut at the first place of a character in one way only. -/
theorem append_cons_inj_of_first {ys xs' ys' : List Char} (hxs : c ∉ xs) (hxs' : c ∉ xs')
    (h : xs ++ c :: ys = xs' ++ c :: ys') : xs = xs' ∧ ys = ys' := by
  have hfront := congrArg (List.takeWhile (· ≠ c)) h
  rw [takeWhile_ne_append_cons hxs, takeWhile_ne_append_cons hxs'] at hfront
  subst hfront
  exact ⟨rfl, List.tail_eq_of_cons_eq (List.append_cancel_left h)⟩

/-- A text is cut at the last place of a character. -/
theorem exists_last_of_mem (h : c ∈ xs) :
    ∃ front behind, xs = front ++ c :: behind ∧ c ∉ behind := by
  obtain ⟨behind, front, hreverse, hnot⟩ := List.eq_append_cons_of_mem (List.mem_reverse.2 h)
  refine ⟨front.reverse, behind.reverse, ?_, by rwa [List.mem_reverse]⟩
  rw [← List.reverse_reverse xs, hreverse, List.reverse_append, List.reverse_cons,
    List.append_assoc, List.singleton_append]

end

/-! ### Identifiers -/

section

variable {c d : Char}

theorem ne_of_isIdentRest (hc : isIdentRest c = true) (hd : isIdentRest d = false) : c ≠ d := by
  rintro rfl
  rw [hc] at hd
  cases hd

theorem ne_of_isIdentStart (hc : isIdentStart c = true) (hd : isIdentRest d = false) : c ≠ d :=
  ne_of_isIdentRest (isIdentRest_of_isIdentStart hc) hd

theorem forall_ne_of_isIdentRest (hc : isIdentRest c = true) {ds : List Char}
    (hds : ds.any isIdentRest = false) : ∀ d ∈ ds, c ≠ d := by
  rintro d hd rfl
  rw [List.any_eq_false] at hds
  exact hds c hd hc

theorem isAsciiSpace_of_isIdentRest (h : isIdentRest c = true) : isAsciiSpace c = false := by
  have hspaces : ∀ d ∈ [' ', '\t', '\n', '\x0c', '\r'], c ≠ d :=
    forall_ne_of_isIdentRest h (by decide)
  simpa [isAsciiSpace, and_assoc] using hspaces

theorem isIdentRest_of_isAsciiSpace (h : isAsciiSpace c = true) : isIdentRest c = false := by
  refine Bool.eq_false_iff.2 fun hc => ?_
  rw [isAsciiSpace_of_isIdentRest hc] at h
  cases h

theorem isIdentRest_of_isAsciiDigit (h : isAsciiDigit c = true) : isIdentRest c = true := by
  simp [isIdentRest, h]

theorem isAsciiDigit_of_isIdentStart (h : isIdentStart c = true) : isAsciiDigit c = false := by
  simp only [isIdentStart, isAsciiLetter, isAsciiDigit, Bool.or_eq_true, Bool.and_eq_true,
    decide_eq_true_eq, beq_iff_eq, Bool.and_eq_false_iff, decide_eq_false_iff_not, Char.le_def,
    UInt32.le_iff_toNat_le] at h ⊢
  rcases h with h | rfl
  · have h₀ : '9'.val.toNat = 57 := rfl
    have h₁ : 'a'.val.toNat = 97 := rfl
    have h₂ : 'A'.val.toNat = 65 := rfl
    omega
  · exact Or.inr (by decide)

end

section

variable {cs : List Char}

theorem exists_head_of_isIdent (h : isIdent cs = true) :
    ∃ c rest, cs = c :: rest ∧ isIdentStart c = true ∧ ∀ d ∈ rest, isIdentRest d = true := by
  cases cs with
  | nil => cases h
  | cons c rest =>
    rw [isIdent, Bool.and_eq_true, List.all_eq_true] at h
    exact ⟨c, rest, rfl, h.1, h.2⟩

theorem isIdentRest_of_isIdent (h : isIdent cs = true) : ∀ c ∈ cs, isIdentRest c = true := by
  obtain ⟨c, rest, rfl, hc, hrest⟩ := exists_head_of_isIdent h
  exact List.forall_mem_cons.2 ⟨isIdentRest_of_isIdentStart hc, hrest⟩

theorem isIdent_takeWhile (h : cs.head?.any isIdentStart = true) :
    isIdent (cs.takeWhile isIdentRest) = true := by
  cases cs with
  | nil => cases h
  | cons c cs =>
    have hc : isIdentStart c = true := h
    rw [List.takeWhile_cons_of_pos (isIdentRest_of_isIdentStart hc), isIdent, hc, Bool.true_and,
      List.all_eq_true]
    exact fun d => List.mem_takeWhile_imp

end

/-! ### Blanks -/

theorem toNat_of_isIdentRest {c : Char} (h : isIdentRest c = true) :
    48 ≤ c.toNat ∧ c.toNat ≤ 122 := by
  simp only [isIdentRest, isAsciiLetter, isAsciiDigit, Bool.or_eq_true, Bool.and_eq_true,
    decide_eq_true_eq, beq_iff_eq, Char.le_def, UInt32.le_iff_toNat_le] at h
  rcases h with ((h | h) | h) | rfl
  · change 97 ≤ c.toNat ∧ c.toNat ≤ 122 at h
    omega
  · change 65 ≤ c.toNat ∧ c.toNat ≤ 90 at h
    omega
  · change 48 ≤ c.toNat ∧ c.toNat ≤ 57 at h
    omega
  · decide

theorem isBlank_of_isIdentRest {c : Char} (h : isIdentRest c = true) : isBlank c = false := by
  have hapart : ∀ r ∈ blankRanges, r.2 < 48 ∨ 122 < r.1 := by decide
  rw [isBlank, List.any_eq_false]
  intro r hr
  have hrange := toNat_of_isIdentRest h
  rw [Bool.and_eq_true, decide_eq_true_iff, decide_eq_true_iff]
  rcases hapart r hr with hlow | hhigh <;> omega

/-- **The blanks around a text are left out.** -/
theorem trimChars_append {before cs behind : List Char} (hbefore : ∀ c ∈ before, isBlank c = true)
    (hbehind : ∀ c ∈ behind, isBlank c = true) (hne : cs ≠ [])
    (hhead : ∀ c ∈ cs.head?, isBlank c = false) (hlast : ∀ c ∈ cs.getLast?, isBlank c = false) :
    trimChars (before ++ (cs ++ behind)) = cs := by
  have hhead' : ∀ c ∈ (cs ++ behind).head?, isBlank c = false := by
    cases cs with
    | nil => exact absurd rfl hne
    | cons c cs => exact hhead
  have hlast' : ∀ c ∈ cs.reverse.head?, isBlank c = false := by rwa [List.head?_reverse]
  have hreverse : ∀ c ∈ behind.reverse, isBlank c = true :=
    fun c hc => hbehind c (List.mem_reverse.1 hc)
  rw [trimChars, dropBlankEnd, dropWhile_append_of_head? hbefore hhead', List.reverse_append,
    dropWhile_append_of_head? hreverse hlast', List.reverse_reverse]

/-- A text without blanks in it is what trimming leaves of it. -/
theorem trimChars_of_forall {before cs behind : List Char}
    (hbefore : ∀ c ∈ before, isBlank c = true) (hbehind : ∀ c ∈ behind, isBlank c = true)
    (hne : cs ≠ []) (h : ∀ c ∈ cs, isBlank c = false) :
    trimChars (before ++ (cs ++ behind)) = cs :=
  trimChars_append hbefore hbehind hne (fun c hc => h c (List.mem_of_mem_head? hc))
    fun c hc => h c (List.mem_of_mem_getLast? hc)

theorem trimChars_append_cons {before : List Char} {c : Char}
    (hbefore : ∀ d ∈ before, isBlank d = true) (hc : isBlank c = false) (cs : List Char) :
    trimChars (before ++ c :: cs) = c :: dropBlankEnd cs := by
  have hhead : ∀ d ∈ (c :: cs).head?, isBlank d = false := by
    rintro d ⟨⟩
    exact hc
  rw [trimChars, dropWhile_append_of_head? hbefore hhead, dropBlankEnd, List.reverse_cons,
    List.dropWhile_append]
  split
  · next hempty =>
    rw [dropBlankEnd, List.isEmpty_iff.1 hempty]
    simp [hc]
  · rw [List.reverse_append, dropBlankEnd]
    rfl

theorem mem_dropBlankEnd {cs : List Char} {c : Char} (h : c ∈ cs) (hc : isBlank c = false) :
    c ∈ dropBlankEnd cs := by
  rw [dropBlankEnd, List.mem_reverse]
  have hmem : c ∈ cs.reverse.takeWhile isBlank ++ cs.reverse.dropWhile isBlank := by
    rwa [List.takeWhile_append_dropWhile, List.mem_reverse]
  refine (List.mem_append.1 hmem).resolve_left fun hblank => ?_
  rw [List.mem_takeWhile_imp hblank] at hc
  cases hc

end Sieve.Text
