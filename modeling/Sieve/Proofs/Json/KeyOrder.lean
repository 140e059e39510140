import Mathlib.Data.List.Nodup
import Mathlib.Data.String.Basic
import Sieve.Proofs.Json.Lookup

/-!
# Documents without the order of keys

Two documents are the same but for the order of keys if they are equal once the entries of every
object are sorted by key, at every depth. Sorting is stable, so that it only forgets the order of
different keys, and entries with one key stay in the order in which they are.

## Main definitions

* `Json.sortKeys` — the document with the entries of every object in the order of their keys

## Main results

* `Entries.perm_of_get?` — without repeated keys, look-ups determine entries up to their order
* `Json.sortKeys_object_eq_of_perm` — the order of entries does not matter
-/

namespace Sieve

namespace Entries

universe u

variable {α : Type u} {xs ys : Entries α}

theorem keys_map_snd {β : Type u} (f : α → β) (es : Entries α) :
    keys (es.map fun e => (e.1, f e.2)) = keys es := by
  rw [keys, List.map_map]
  rfl

theorem nodup_of_nodup_keys (h : (keys xs).Nodup) : xs.Nodup := List.Nodup.of_map Prod.fst h

/-- Without repeated keys, look-ups determine entries up to their order. -/
theorem perm_of_get? (hxs : (keys xs).Nodup) (hys : (keys ys).Nodup)
    (h : ∀ key, get? xs key = get? ys key) : xs.Perm ys := by
  rw [List.perm_ext_iff_of_nodup (nodup_of_nodup_keys hxs) (nodup_of_nodup_keys hys)]
  rintro ⟨key, value⟩
  rw [mem_iff_get? hxs, mem_iff_get? hys, h]

end Entries

namespace Json

/-- Entries in the order of their keys. -/
def sortEntries (es : List (String × Json)) : List (String × Json) :=
  es.mergeSort fun p q => decide (p.1 ≤ q.1)

mutual

/-- The document with the entries of every object, at any depth, in the order of their keys. -/
def sortKeys : Json → Json
  | array items => array (sortKeysList items)
  | object entries => object (sortEntries (sortKeysEntries entries))
  | v => v

/-- `sortKeys` of each item. -/
def sortKeysList : List Json → List Json
  | [] => []
  | v :: vs => v.sortKeys :: sortKeysList vs

/-- `sortKeys` of the value of each entry. -/
def sortKeysEntries : List (String × Json) → List (String × Json)
  | [] => []
  | (k, v) :: es => (k, v.sortKeys) :: sortKeysEntries es

end

theorem sortKeysEntries_eq_map (es : List (String × Json)) :
    sortKeysEntries es = es.map fun e => (e.1, e.2.sortKeys) := by
  induction es with
  | nil => rfl
  | cons e es ih =>
    obtain ⟨k, v⟩ := e
    rw [sortKeysEntries, ih, List.map_cons]

theorem pairwise_sortEntries (es : List (String × Json)) :
    (sortEntries es).Pairwise fun p q => p.1 ≤ q.1 := by
  have hsorted : (sortEntries es).Pairwise fun p q => decide (p.1 ≤ q.1) = true := by
    refine List.pairwise_mergeSort ?_ ?_ es
    · intro p q r hpq hqr
      exact decide_eq_true (le_trans (of_decide_eq_true hpq) (of_decide_eq_true hqr))
    · intro p q
      simpa using le_total p.1 q.1
  exact hsorted.imp of_decide_eq_true

/-- Sorted entries with different keys do not show the order that they came in. -/
theorem sortEntries_eq_of_perm {es fs : List (String × Json)} (hkeys : (Entries.keys es).Nodup)
    (h : es.Perm fs) : sortEntries es = sortEntries fs := by
  have hes : (sortEntries es).Perm es := List.mergeSort_perm _ _
  have hfs : (sortEntries fs).Perm fs := List.mergeSort_perm _ _
  refine List.Perm.eq_of_pairwise ?_ (pairwise_sortEntries es) (pairwise_sortEntries fs)
    (hes.trans (h.trans hfs.symm))
  rintro ⟨k, v⟩ ⟨k', v'⟩ hp hq hle hge
  obtain rfl : k = k' := le_antisymm hle hge
  have hget := (Entries.mem_iff_get? hkeys).1 (hes.mem_iff.1 hp)
  have hget' := (Entries.mem_iff_get? hkeys).1 ((h.trans hfs.symm).mem_iff.2 hq)
  rw [Option.some.inj (hget.symm.trans hget')]

/-- **The order of entries does not matter.** -/
theorem sortKeys_object_eq_of_perm {es fs : List (String × Json)} (hkeys : (Entries.keys es).Nodup)
    (h : (es.map fun e => (e.1, e.2.sortKeys)).Perm (fs.map fun e => (e.1, e.2.sortKeys))) :
    (object es).sortKeys = (object fs).sortKeys := by
  rw [sortKeys, sortKeys, sortKeysEntries_eq_map, sortKeysEntries_eq_map]
  refine congrArg object (sortEntries_eq_of_perm ?_ h)
  rwa [Entries.keys_map_snd]

/-- Objects in which the same stands under every key are the same but for the order of keys. -/
theorem sortKeys_object_eq_of_get? {es fs : List (String × Json)} (hes : (Entries.keys es).Nodup)
    (hfs : (Entries.keys fs).Nodup)
    (h : ∀ key, (Entries.get? es key).map sortKeys = (Entries.get? fs key).map sortKeys) :
    (object es).sortKeys = (object fs).sortKeys := by
  refine sortKeys_object_eq_of_perm hes (Entries.perm_of_get? ?_ ?_ fun key => ?_)
  · rwa [Entries.keys_map_snd]
  · rwa [Entries.keys_map_snd]
  · rw [Entries.get?_map_snd, Entries.get?_map_snd, h]

end Json

end Sieve
