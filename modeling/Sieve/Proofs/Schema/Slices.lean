import Sieve.Schema.Span

/-!
# Cuts by bytes

A span cuts a piece out of a text only if it begins in front of its end and both ends fall between
two characters. So a cut that has a result tells what stands in front of the piece and behind it.

## Main results

* `dropBytes?_eq_some_iff`, `takeBytes?_eq_some_iff` — cutting at one place
* `slice?_eq_some_iff` — a cut has a result exactly between two characters
-/

namespace Sieve.Schema

open Sieve.Text

/-- A text that is not empty has a first byte. -/
theorem exists_byteLength_cons (c : Char) (cs : List Char) :
    ∃ n, byteLength (c :: cs) = n + 1 ∧ n + 1 = c.utf8Size + byteLength cs := by
  have hsize := c.utf8Size_pos
  exact ⟨byteLength (c :: cs) - 1, by rw [byteLength_cons]; omega, by rw [byteLength_cons]; omega⟩

theorem dropBytes?_eq_some_iff {n : Nat} {cs ys : List Char} :
    dropBytes? n cs = some ys ↔ ∃ xs, cs = xs ++ ys ∧ n = byteLength xs := by
  constructor
  · intro h
    fun_induction dropBytes? n cs with
    | case1 cs => exact ⟨[], Option.some.inj h, rfl⟩
    | case2 n => cases h
    | case3 n c cs hle ih =>
      obtain ⟨xs, rfl, hlength⟩ := ih h
      exact ⟨c :: xs, rfl, by rw [byteLength_cons]; omega⟩
    | case4 n c cs hgt => cases h
  · rintro ⟨xs, rfl, rfl⟩
    induction xs with
    | nil => rw [byteLength_nil, dropBytes?, List.nil_append]
    | cons c xs ih =>
      obtain ⟨n, hn, hsize⟩ := exists_byteLength_cons c xs
      rw [hn, List.cons_append, dropBytes?, if_pos (by omega),
        show n + 1 - c.utf8Size = byteLength xs by omega, ih]

theorem takeBytes?_eq_some_iff {n : Nat} {cs xs : List Char} :
    takeBytes? n cs = some xs ↔ ∃ ys, cs = xs ++ ys ∧ n = byteLength xs := by
  constructor
  · intro h
    fun_induction takeBytes? n cs generalizing xs with
    | case1 cs => exact ⟨cs, by cases h; exact ⟨rfl, rfl⟩⟩
    | case2 n => cases h
    | case3 n c cs hle ih =>
      obtain ⟨ds, hds, rfl⟩ := Option.map_eq_some_iff.1 h
      obtain ⟨ys, rfl, hlength⟩ := ih hds
      exact ⟨ys, rfl, by rw [byteLength_cons]; omega⟩
    | case4 n c cs hgt => cases h
  · rintro ⟨ys, rfl, rfl⟩
    induction xs with
    | nil => rw [byteLength_nil, takeBytes?]
    | cons c xs ih =>
      obtain ⟨n, hn, hsize⟩ := exists_byteLength_cons c xs
      rw [hn, List.cons_append, takeBytes?, if_pos (by omega),
        show n + 1 - c.utf8Size = byteLength xs by omega, ih, Option.map_some]

/-- **A cut has a result exactly between two characters**, the text in between. -/
theorem slice?_eq_some_iff {s : Span} {text piece : List Char} :
    s.slice? text = some piece ↔
      ∃ xs zs, text = xs ++ (piece ++ zs) ∧
        s = ⟨byteLength xs, byteLength (xs ++ piece)⟩ := by
  constructor
  · intro h
    rw [Span.slice?] at h
    split at h
    · next hle =>
      obtain ⟨behind, hdrop, htake⟩ := Option.bind_eq_some_iff.1 h
      obtain ⟨xs, rfl, hstart⟩ := dropBytes?_eq_some_iff.1 hdrop
      obtain ⟨zs, rfl, hlength⟩ := takeBytes?_eq_some_iff.1 htake
      refine ⟨xs, zs, rfl, ?_⟩
      have hstop : s.stop = byteLength (xs ++ piece) := by
        rw [byteLength_append]
        omega
      rw [← hstart, ← hstop]
    · cases h
  · rintro ⟨xs, zs, rfl, rfl⟩
    have hle : byteLength xs ≤ byteLength (xs ++ piece) := by
      rw [byteLength_append]
      omega
    have hlength : byteLength (xs ++ piece) - byteLength xs = byteLength piece := by
      rw [byteLength_append]
      omega
    rw [Span.slice?, if_pos hle, dropBytes?_eq_some_iff.2 ⟨xs, rfl, rfl⟩, Option.bind_some, hlength,
      takeBytes?_eq_some_iff.2 ⟨zs, rfl, rfl⟩]

end Sieve.Schema
