/-!
# Cutting a text at a mark

The parts of a text between the occurrences of one character. There is always at least one part,
and the marks put between the parts give the text back. Parts without a mark in them come back from
the text that they make.
-/

namespace Sieve.Text

/-- Cuts a text at every occurrence of a character. -/
def splitAt (mark : Char) : List Char → List (List Char)
  | [] => [[]]
  | c :: cs =>
    if c = mark then [] :: splitAt mark cs
    else
      match splitAt mark cs with
      | [] => [[c]]
      | part :: parts => (c :: part) :: parts

theorem splitAt_ne_nil (mark : Char) (cs : List Char) : splitAt mark cs ≠ [] := by
  induction cs with
  | nil => simp [splitAt]
  | cons c cs ih =>
    simp only [splitAt]
    split
    · simp
    · split <;> simp

theorem intercalate_splitAt (mark : Char) (cs : List Char) :
    [mark].intercalate (splitAt mark cs) = cs := by
  induction cs with
  | nil => simp [splitAt, List.intercalate]
  | cons c cs ih =>
    simp only [splitAt]
    by_cases h : c = mark
    · subst h
      cases hp : splitAt c cs with
      | nil => exact absurd hp (splitAt_ne_nil c cs)
      | cons p ps =>
        rw [hp] at ih
        simp [List.intercalate] at ih ⊢
        exact ih
    · rw [if_neg h]
      cases hp : splitAt mark cs with
      | nil => exact absurd hp (splitAt_ne_nil mark cs)
      | cons p ps =>
        rw [hp] at ih
        cases ps with
        | nil => simpa [List.intercalate] using ih
        | cons q qs =>
          simp [List.intercalate, List.intersperse] at ih ⊢
          exact ih

/-- A text without the mark is one part. -/
theorem splitAt_of_not_mem {mark : Char} {part : List Char} (h : mark ∉ part) :
    splitAt mark part = [part] := by
  induction part with
  | nil => rfl
  | cons c cs ih =>
    have hc : c ≠ mark := fun e => h (by simp [e])
    have hcs : mark ∉ cs := fun hmem => h (List.mem_cons_of_mem c hmem)
    rw [splitAt, if_neg hc, ih hcs]

/-- The first mark ends the first part. -/
theorem splitAt_append_mark {mark : Char} {part : List Char} (h : mark ∉ part) (rest : List Char) :
    splitAt mark (part ++ mark :: rest) = part :: splitAt mark rest := by
  induction part with
  | nil => rw [List.nil_append, splitAt, if_pos rfl]
  | cons c cs ih =>
    have hc : c ≠ mark := fun e => h (by simp [e])
    have hcs : mark ∉ cs := fun hmem => h (List.mem_cons_of_mem c hmem)
    rw [List.cons_append, splitAt, if_neg hc, ih hcs]

/-- Parts without the mark come back from the text that they make with marks between them. -/
theorem splitAt_intercalate {mark : Char} {parts : List (List Char)} (hne : parts ≠ [])
    (h : ∀ part ∈ parts, mark ∉ part) : splitAt mark ([mark].intercalate parts) = parts := by
  induction parts with
  | nil => exact absurd rfl hne
  | cons part parts ih =>
    have hpart : mark ∉ part := h part List.mem_cons_self
    have hparts : ∀ p ∈ parts, mark ∉ p := fun p hp => h p (List.mem_cons_of_mem part hp)
    cases parts with
    | nil => rw [List.intercalate_singleton, splitAt_of_not_mem hpart]
    | cons next parts =>
      have hjoin : [mark].intercalate (part :: next :: parts) =
          part ++ mark :: [mark].intercalate (next :: parts) := by
        rw [List.intercalate_cons_cons, List.append_assoc, List.singleton_append]
      rw [hjoin, splitAt_append_mark hpart, ih (List.cons_ne_nil next parts) hparts]

end Sieve.Text
