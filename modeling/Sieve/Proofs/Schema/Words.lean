import Sieve.Proofs.Text.Runs
import Sieve.Schema.Block
import Sieve.Schema.Word

/-!
# Texts that every scanner passes over

The scanners for blocks and for words each go through a text with a mode and a depth of their own.
`walk` goes through it for both at once and stops where either could take notice: at a brace or a
slash in code, at a blank outside of brackets, and at a line break in a string literal. A text that
it passes over, from code to code and outside of brackets at both ends, is one word for the one
scanner and part of a body for the other.

## Main definitions

* `isQuiet` — characters that mean nothing to either scanner
* `walk` — goes through a text, and stops where a scanner could take notice

## Main results

* `wordSpan_of_walk` — what is walked over is part of the word
* `bodySpan?_of_walk` — and part of the body
-/

namespace Sieve.Schema

open Sieve.Text

/-! ### Going through a text -/

/-- The character is no blank, brace, slash or quote, and opens and closes no bracket. -/
def isQuiet (c : Char) : Bool :=
  !isAsciiSpace c && !(['\x7b', '\x7d', '/', '"', '(', ')', '[', ']'].contains c)

/-- A scanner could take notice of `c`, read in the given mode and depth. -/
def alerts (m : Mode) (depth : Nat) (c : Char) : Bool :=
  match m with
  | .code => c == '\x7b' || c == '\x7d' || c == '/' || (depth == 0 && isAsciiSpace c)
  | _ => c == '\n'

/-- What is passed over outside of brackets is passed over inside of them too. -/
theorem alerts_of_zero {c : Char} (h : alerts .code 0 c = false) (depth : Nat) :
    alerts .code depth c = false := by
  simp only [alerts, beq_self_eq_true, Bool.true_and, Bool.or_eq_false_iff] at h
  simp [alerts, h]

/-- Goes through a text; none if a scanner could take notice of some character. -/
def walk (m : Mode) (depth : Nat) : List Char → Option (Mode × Nat)
  | [] => some (m, depth)
  | c :: cs =>
    if alerts m depth c then none
    else walk (m.afterWord c) (if m = .code then groupDepth depth c else depth) cs

theorem walk_cons {m : Mode} {depth : Nat} {c : Char} (h : alerts m depth c = false)
    (cs : List Char) : walk m depth (c :: cs) =
      walk (m.afterWord c) (if m = .code then groupDepth depth c else depth) cs := by
  rw [walk, h, if_neg Bool.false_ne_true]

theorem walk_append (m : Mode) (depth : Nat) (xs ys : List Char) :
    walk m depth (xs ++ ys) = (walk m depth xs).bind fun p => walk p.1 p.2 ys := by
  induction xs generalizing m depth with
  | nil => rfl
  | cons c cs ih =>
    rw [List.cons_append, walk, walk]
    split
    · rfl
    · exact ih _ _

/-! ### Quiet characters -/

theorem isQuiet_of_isIdentRest {c : Char} (h : isIdentRest c = true) : isQuiet c = true := by
  have hmarks : ∀ d ∈ ['\x7b', '\x7d', '/', '"', '(', ')', '[', ']'], c ≠ d :=
    forall_ne_of_isIdentRest h (by decide)
  rw [isQuiet, isAsciiSpace_of_isIdentRest h]
  simpa using hmarks

theorem walk_quiet {cs : List Char} (h : ∀ c ∈ cs, isQuiet c = true) (depth : Nat)
    (rest : List Char) : walk .code depth (cs ++ rest) = walk .code depth rest := by
  induction cs with
  | nil => rfl
  | cons c cs ih =>
    obtain ⟨hc, hcs⟩ := List.forall_mem_cons.1 h
    simp only [isQuiet, Bool.and_eq_true, Bool.not_eq_true', List.contains_eq_mem,
      decide_eq_false_iff_not, List.mem_cons, List.not_mem_nil, or_false, not_or] at hc
    obtain ⟨hspace, hopen, hclose, hslash, hquote, h₁, h₂, h₃, h₄⟩ := hc
    have halert : alerts .code depth c = false := by simp [alerts, hspace, hopen, hclose, hslash]
    rw [List.cons_append, walk_cons halert, if_pos rfl, Mode.afterWord, if_neg hquote,
      groupDepth, if_neg (by simp [h₁, h₃]), if_neg (by simp [h₂, h₄]), ih hcs]

theorem walk_of_quiet {cs : List Char} (h : ∀ c ∈ cs, isQuiet c = true) (depth : Nat) :
    walk .code depth cs = some (.code, depth) := by
  simpa [walk] using walk_quiet h depth []

/-! ### Words and bodies -/

theorem reading_of_not_alerts {m : Mode} {depth : Nat} {c : Char} (h : alerts m depth c = false) :
    m.reading c = m := by
  cases m with
  | code => simp [Mode.reading]
  | string => simp [Mode.reading, show c ≠ '\n' by simpa [alerts] using h]
  | escape => simp [Mode.reading]
  | comment => simp [Mode.reading, show c ≠ '\n' by simpa [alerts] using h]

/-- **What is walked over is part of the word.** -/
theorem wordSpan_of_walk {m m' : Mode} {depth depth' : Nat} {cs : List Char}
    (h : walk m depth cs = some (m', depth')) (rest : List Char) :
    wordSpan m depth (cs ++ rest) =
      (cs ++ (wordSpan m' depth' rest).1, (wordSpan m' depth' rest).2) := by
  induction cs generalizing m depth with
  | nil =>
    obtain ⟨rfl, rfl⟩ : m = m' ∧ depth = depth' := by simpa [walk] using h
    rfl
  | cons c cs ih =>
    rw [walk] at h
    split at h
    · cases h
    · next halert =>
      rw [Bool.not_eq_true] at halert
      have hend : endsWord m depth c (cs ++ rest) = false := by
        cases m with
        | code =>
          simp only [alerts, Bool.or_eq_false_iff, Bool.and_eq_false_iff] at halert
          obtain ⟨⟨-, hslash⟩, hspace⟩ := halert
          rcases hspace with hdepth | hspace
          · simp [endsWord, by simpa using hdepth]
          · simp [endsWord, startsComment, hspace, hslash]
        | string => simp [endsWord]
        | escape => simp [endsWord]
        | comment => simp [endsWord]
      rw [List.cons_append, wordSpan]
      simp only [reading_of_not_alerts halert]
      rw [hend, if_neg Bool.false_ne_true, ih h, List.cons_append]

theorem wordSpan_of_isAsciiSpace {c : Char} (h : isAsciiSpace c = true) (cs : List Char) :
    wordSpan .code 0 (c :: cs) = ([], c :: cs) := by
  have hread : Mode.code.reading c = .code := by simp [Mode.reading]
  rw [wordSpan, hread]
  simp [endsWord, h]

/-- A word that has begun holds its first character. -/
theorem wordSpan_code_cons {c : Char} {cs : List Char} (hspace : isAsciiSpace c = false)
    (hcomment : startsComment c cs = false) :
    wordSpan .code 0 (c :: cs) =
      (c :: (wordSpan (Mode.code.afterWord c) (groupDepth 0 c) cs).1,
        (wordSpan (Mode.code.afterWord c) (groupDepth 0 c) cs).2) := by
  have hend : endsWord .code 0 c cs = false := by simp [endsWord, hspace, hcomment]
  rw [wordSpan, Mode.reading_code]
  simp only [hend, Bool.false_eq_true, if_false, if_true]

/-- **What is walked over is part of the body.** -/
theorem bodySpan?_of_walk {m m' : Mode} {depth depth' : Nat} {cs : List Char}
    (h : walk m depth cs = some (m', depth')) (braces : Nat) (rest : List Char) :
    bodySpan? m braces (cs ++ rest) =
      (bodySpan? m' braces rest).map fun p => (cs ++ p.1, p.2) := by
  induction cs generalizing m depth with
  | nil =>
    obtain ⟨rfl, rfl⟩ : m = m' ∧ depth = depth' := by simpa [walk] using h
    simp
  | cons c cs ih =>
    rw [walk] at h
    split at h
    · cases h
    · next halert =>
      rw [Bool.not_eq_true] at halert
      have hread := reading_of_not_alerts halert
      have hcode : m = .code → c ≠ '\x7b' ∧ c ≠ '\x7d' ∧ c ≠ '/' := by
        rintro rfl
        simp only [alerts, Bool.or_eq_false_iff, beq_eq_false_iff_ne] at halert
        exact ⟨halert.1.1.1, halert.1.1.2, halert.1.2⟩
      have hafter : m.afterCode c (cs ++ rest) = m.afterWord c := by
        rw [Mode.afterCode]
        exact if_neg fun hc => (hcode hc.1).2.2 hc.2.1
      have hbraces : (if m = .code then braceDepth braces c else braces) = braces := by
        split
        · next hm => rw [braceDepth, if_neg (hcode hm).1, if_neg (hcode hm).2.1]
        · rfl
      rw [List.cons_append, bodySpan?]
      simp only [hread]
      rw [if_neg fun hc => (hcode hc.1).2.1 hc.2.1, hafter, hbraces, ih h, Option.map_map]
      rfl

end Sieve.Schema
