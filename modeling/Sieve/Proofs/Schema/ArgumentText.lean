import Sieve.Proofs.Schema.AttributeTokens
import Sieve.Schema.Attribute.Raw

/-!
# The text of an argument

The first argument of an attribute can be cut out without reading the others: it begins behind the
first opening parenthesis and ends at the first comma that stands outside of all brackets and
string literals, or else at the last closing parenthesis. The blanks around it are left out.

## Main results

* `argumentText?_append` — what stands between the parentheses
* `untilComma_of_spelled` — no token of an item is cut
-/

namespace Sieve.Schema

open Sieve.Text Sieve.Decimal Attribute

/-- What stands between the first opening and the last closing parenthesis. -/
theorem argumentText?_append {front inside behind : List Char} (hfront : '(' ∉ front)
    (hbehind : ')' ∉ behind) :
    argumentText? (front ++ '(' :: (inside ++ ')' :: behind)) = some inside := by
  have hreverse : (inside ++ ')' :: behind).reverse = behind.reverse ++ ')' :: inside.reverse := by
    rw [List.reverse_append, List.reverse_cons, List.append_assoc, List.singleton_append]
  have hlast : ')' ∉ behind.reverse := by rwa [List.mem_reverse]
  rw [argumentText?, dropWhile_ne_append_cons hfront]
  simp only [hreverse, dropWhile_ne_append_cons hlast, List.reverse_reverse]

/-! ### The end of an argument -/

/-- A text without marks is passed over. -/
theorem untilComma_append {cs : List Char} (h : ∀ c ∈ cs, ∀ d ∈ markChars, c ≠ d) (depth : Nat)
    (rest : List Char) :
    untilComma .code depth (cs ++ rest) = cs ++ untilComma .code depth rest := by
  induction cs with
  | nil => rfl
  | cons c cs ih =>
    obtain ⟨hc, hcs⟩ := List.forall_mem_cons.1 h
    simp only [markChars, List.forall_mem_cons] at hc
    obtain ⟨h₁, h₂, h₃, h₄, hcomma, -, hquote, -⟩ := hc
    have hdepth : groupDepth depth c = depth := by simp [groupDepth, h₁, h₂, h₃, h₄]
    rw [List.cons_append, untilComma, if_pos rfl, if_neg fun hc => hcomma hc.1, Mode.afterWord,
      if_neg hquote, hdepth, ih hcs, List.cons_append]

theorem untilComma_inside {inside : List Char} (h : Inside inside) (depth : Nat)
    (rest : List Char) : untilComma .string depth (inside ++ '"' :: rest) =
      inside ++ '"' :: untilComma .code depth rest := by
  induction h with
  | nil => rfl
  | escape c _ ih =>
    -- the escaped character is read in a mode of its own, and any mode but code keeps it
    exact congrArg (fun cs => '\\' :: c :: cs) ih
  | @plain c cs hquote hback _ ih =>
    rw [List.cons_append, untilComma, if_neg (by decide), Mode.afterWord, if_neg hback,
      if_neg hquote, ih]
    rfl

theorem forall_ne_markChars_of_isGap {c : Char} (h : isGap c = true) : ∀ d ∈ markChars, c ≠ d := by
  simp only [isGap, Bool.or_eq_true, beq_iff_eq] at h
  rcases h with ((rfl | rfl) | rfl) | rfl <;> simp [markChars]

theorem untilComma_of_isGap {gap : List Char} (h : ∀ c ∈ gap, isGap c = true) (depth : Nat)
    (rest : List Char) :
    untilComma .code depth (gap ++ rest) = gap ++ untilComma .code depth rest :=
  untilComma_append (fun c hc => forall_ne_markChars_of_isGap (h c hc)) depth rest

theorem forall_ne_markChars_of_mem_text {n : Numeral} {c : Char} (h : c ∈ n.text) :
    ∀ d ∈ markChars, c ≠ d := by
  rcases n.isAsciiDigit_of_mem_text h with hdigit | rfl | rfl
  · exact forall_ne_of_isIdentRest (isIdentRest_of_isAsciiDigit hdigit) (by decide)
  · simp [markChars]
  · simp [markChars]

/-- **No token of an item is cut**: a comma in a string literal ends nothing. -/
theorem untilComma_of_spelled {t : Attribute.Token} {piece : List Char} (h : t.Spelled piece)
    (hmark : t.isMark = false) (depth : Nat) (rest : List Char) :
    untilComma .code depth (piece ++ rest) = piece ++ untilComma .code depth rest := by
  cases h with
  | @string inside hinside =>
    have hread := untilComma_inside hinside depth rest
    rw [List.cons_append, List.append_assoc, List.singleton_append, List.cons_append,
      List.append_assoc, List.singleton_append, ← hread]
    rfl
  | number n => exact untilComma_append (fun c => forall_ne_markChars_of_mem_text) depth rest
  | word hname =>
    refine untilComma_append (fun c hc => ?_) depth rest
    exact forall_ne_of_isIdentRest (isIdentRest_of_isIdent hname c hc) (by decide)
  | _ => cases hmark

/-! ### Blanks -/

theorem isBlank_of_mem_text {n : Numeral} {c : Char} (h : c ∈ n.text) : isBlank c = false := by
  rcases n.isAsciiDigit_of_mem_text h with hdigit | rfl | rfl
  · exact isBlank_of_isIdentRest (isIdentRest_of_isAsciiDigit hdigit)
  · decide
  · decide

theorem isBlank_of_isGap {c : Char} (h : isGap c = true) : isBlank c = true := by
  simp only [isGap, Bool.or_eq_true, beq_iff_eq] at h
  rcases h with ((rfl | rfl) | rfl) | rfl <;> decide

end Sieve.Schema
