import Sieve.Filter.Key

/-!
# The pieces of a key

A key that uses no separator and no bracket is one piece. No piece carries an empty name, so none of
the names in a key is empty; only the empty key has no piece at all.

Two texts with a separator between them are cut apart again, unless the first one runs into the
separator: by a bracket that it opens, or by an underscore at its end.

## Main results

* `pieces_of_needsCutting_eq_false` — a key that need not be cut is one piece
* `segments_of_needsCutting_eq_false` — it is its own only segment, unless it is empty
* `empty_not_mem_segments` — no segment is empty
* `pieces_append_separator` — a separator between two texts is cut off
-/

namespace Sieve.Filter

/-- Cutting finds nothing in a text without separators and brackets. -/
theorem pieces_of_needsCutting_eq_false {cs : List Char} (h : needsCutting cs = false)
    (hne : cs ≠ []) : pieces cs = [.plain cs] := by
  induction cs with
  | nil => exact absurd rfl hne
  | cons c cs ih =>
    rw [needsCutting, Bool.or_eq_false_iff, Bool.or_eq_false_iff] at h
    obtain ⟨⟨hbracket, hsep⟩, hcs⟩ := h
    have hnosep : ¬ (c = '_' ∧ cs.head? = some '_') := by
      rintro ⟨rfl, hhead⟩
      simp [hhead] at hsep
    have hnobracket : ¬ (c = '[' ∧ ']' ∈ cs) := by
      rintro ⟨rfl, -⟩
      simp at hbracket
    rw [pieces, if_neg hnosep, if_neg hnobracket]
    cases cs with
    | nil =>
      rw [pieces]
      rfl
    | cons d ds =>
      rw [ih hcs (List.cons_ne_nil d ds)]
      rfl

theorem name?_ne_nil_of_mem_push {c : Char} {ps : List Piece}
    (h : ∀ p ∈ ps, p.name? ≠ some []) : ∀ p ∈ Piece.push c ps, p.name? ≠ some [] := by
  intro p hp
  unfold Piece.push at hp
  split at hp
  · next text ps =>
    rcases List.mem_cons.1 hp with rfl | hp
    · simp [Piece.name?]
    · exact h p (List.mem_cons_of_mem _ hp)
  · rcases List.mem_cons.1 hp with rfl | hp
    · simp [Piece.name?]
    · exact h p hp

/-- **No piece of a key carries an empty name.** -/
theorem name?_ne_nil_of_mem_pieces (cs : List Char) : ∀ p ∈ pieces cs, p.name? ≠ some [] := by
  induction cs using pieces.induct with
  | case1 => simp [pieces]
  | case2 c cs hsep ih =>
    rw [pieces, if_pos hsep]
    exact List.forall_mem_cons.2 ⟨by simp [Piece.name?], ih⟩
  | case3 c cs hsep hbracket ih =>
    rw [pieces, if_neg hsep, if_pos hbracket]
    refine List.forall_mem_cons.2 ⟨?_, ih⟩
    cases cs.takeWhile (· ≠ ']') <;> simp [Piece.name?]
  | case4 c cs hsep hbracket ih =>
    rw [pieces, if_neg hsep, if_neg hbracket]
    exact name?_ne_nil_of_mem_push ih

/-- **No segment is empty.** -/
theorem empty_not_mem_segments (key : String) : "" ∉ segments key := by
  rw [segments, List.mem_map]
  rintro ⟨cs, hcs, hempty⟩
  obtain ⟨p, hp, hname⟩ := List.mem_filterMap.1 hcs
  obtain rfl : cs = [] := by simpa using hempty
  exact name?_ne_nil_of_mem_pieces _ p hp hname

theorem segments_of_needsCutting_eq_false {key : String} (h : needsCutting key.toList = false)
    (hne : key ≠ "") : segments key = [key] := by
  have hchars : key.toList ≠ [] := by simpa using hne
  rw [segments, pieces_of_needsCutting_eq_false h hchars]
  simp [Piece.name?]

theorem segments_empty : segments "" = [] := by
  simp [segments, pieces]

/-! ### A separator between two texts -/

theorem Piece.push_append {ps : List Piece} (h : ps ≠ []) (c : Char) (qs : List Piece) :
    push c (ps ++ qs) = push c ps ++ qs := by
  cases ps with
  | nil => exact absurd rfl h
  | cons p ps => cases p <;> rfl

theorem Piece.push_ne_nil (c : Char) (ps : List Piece) : push c ps ≠ [] := by
  unfold push
  split <;> simp

theorem pieces_ne_nil {cs : List Char} (h : cs ≠ []) : pieces cs ≠ [] := by
  obtain ⟨c, cs, rfl⟩ := List.exists_cons_of_ne_nil h
  rw [pieces]
  split
  · simp
  · split
    · simp
    · exact Piece.push_ne_nil c _

/-- **A separator between two texts is cut off**, if the first text opens no bracket and does not
end in an underscore, which would be taken for the first half of the separator. -/
theorem pieces_append_separator {cs : List Char} (hbracket : '[' ∉ cs)
    (hlast : cs.getLast? ≠ some '_') (ds : List Char) :
    pieces (cs ++ '_' :: '_' :: ds) = pieces cs ++ .separator :: pieces ds := by
  induction cs using pieces.induct with
  | case1 =>
    rw [pieces.eq_1, List.nil_append, pieces, if_pos ⟨rfl, rfl⟩]
    rfl
  | case2 c cs hsep ih =>
    -- a separator inside the first text; what follows it does not end in an underscore either
    obtain ⟨rfl, hhead⟩ := hsep
    obtain ⟨cs, rfl⟩ := List.head?_eq_some_iff.1 hhead
    have hrest : cs.getLast? ≠ some '_' := fun h => hlast (by simp [List.getLast?_cons, h])
    have hcs : '[' ∉ cs := fun h => hbracket (by simp [h])
    rw [List.cons_append, pieces, if_pos ⟨rfl, rfl⟩, pieces, if_pos ⟨rfl, rfl⟩]
    exact congrArg (Piece.separator :: ·) (ih hcs hrest)
  | case3 c cs hsep hopen ih => exact absurd (by simp [hopen.1]) hbracket
  | case4 c cs hsep hopen ih =>
    have hc : c ≠ '[' := fun e => hbracket (by simp [e])
    have hcs : '[' ∉ cs := fun h => hbracket (List.mem_cons_of_mem _ h)
    have hnobracket : ∀ es : List Char, ¬ (c = '[' ∧ ']' ∈ es) := fun es h => hc h.1
    cases cs with
    | nil =>
      have hne : c ≠ '_' := fun e => hlast (by simp [e])
      rw [List.singleton_append, pieces, if_neg fun h => hne h.1, if_neg (hnobracket _), pieces,
        if_pos ⟨rfl, rfl⟩, pieces, if_neg hsep, if_neg hopen, pieces.eq_1]
      rfl
    | cons d es =>
      have hsep' : ¬ (c = '_' ∧ (d :: es ++ '_' :: '_' :: ds).head? = some '_') := hsep
      have hes : (d :: es).getLast? ≠ some '_' := by rwa [List.getLast?_cons_cons] at hlast
      rw [List.cons_append, pieces, if_neg hsep', if_neg (hnobracket _), ih hcs hes,
        Piece.push_append (pieces_ne_nil (List.cons_ne_nil d es)), pieces.eq_2 c, if_neg hsep,
        if_neg hopen]

end Sieve.Filter
