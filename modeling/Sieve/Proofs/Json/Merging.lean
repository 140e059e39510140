import Mathlib.Data.List.Nodup
import Sieve.Proofs.Json.Lookup

/-!
# Merging entries one at a time

Entries are laid over others one at a time, each of them writing its own key. So merging does not
look past the keys that it is given: entries in front whose keys do not come again are left alone,
and entries behind are left alone if all keys are found before them.

## Main definitions

* `Json.lay` — a value laid over what may stand under its key
* `Json.items` — the items that a list is joined to

## Main results

* `Json.sanitize_of_isSafe` — where no key is unsafe, nothing is dropped
* `Json.mergeEntries_cons`, `Json.mergeEntries_append` — merging entries in turn
* `Json.mergeEntries_append_of_disjoint`, `Json.mergeEntries_append_of_subset` — what it leaves
  alone
* `Json.merge_array`, `Json.merge_object_of_not_object` — a list and an object over anything
-/

namespace Sieve

universe u

namespace Entries

variable {α : Type u} {xs : Entries α} {key : String}

theorem insert_append_of_mem (ys : Entries α) (value : α) (h : key ∈ keys xs) :
    insert (xs ++ ys) key value = insert xs key value ++ ys := by
  induction xs with
  | nil => cases h
  | cons p xs ih =>
    obtain ⟨k, v⟩ := p
    rw [List.cons_append, insert, insert]
    by_cases hk : k = key
    · rw [if_pos hk, if_pos hk, List.cons_append]
    · have hmem : key ∈ keys xs := (List.mem_cons.1 h).resolve_left (Ne.symm hk)
      rw [if_neg hk, if_neg hk, ih hmem, List.cons_append]

theorem insert_append_of_not_mem (ys : Entries α) (value : α) (h : key ∉ keys xs) :
    insert (xs ++ ys) key value = xs ++ insert ys key value := by
  induction xs with
  | nil => rfl
  | cons p xs ih =>
    obtain ⟨k, v⟩ := p
    obtain ⟨hk, hmem⟩ := not_or.1 (mt List.mem_cons.2 h)
    rw [List.cons_append, insert, if_neg (Ne.symm hk), ih hmem, List.cons_append]

theorem map_insert {β : Type u} (f : α → β) (es : Entries α) (key : String) (value : α) :
    (insert es key value).map (fun p => (p.1, f p.2)) =
      insert (es.map fun p => (p.1, f p.2)) key (f value) := by
  induction es with
  | nil => rfl
  | cons p es ih =>
    obtain ⟨k, v⟩ := p
    rw [insert, List.map_cons, insert]
    split
    · rfl
    · rw [List.map_cons, ih]

theorem safeEntries_of_forall {es : Entries α} (h : ∀ p ∈ es, isUnsafeKey p.1 = false) :
    safeEntries es = es :=
  List.filter_eq_self.2 fun p hp => by rw [h p hp, Bool.not_false]

end Entries

namespace Json

/-! ### Nothing unsafe -/

mutual

/-- Where no key is unsafe, nothing is dropped. -/
theorem sanitize_of_isSafe (v : Json) (h : v.isSafe = true) : v.sanitize = v := by
  cases v with
  | array vs => rw [sanitize, sanitizeList_of_isSafe vs (isSafe_array.1 h)]
  | object es => rw [sanitize, sanitizeEntries_of_isSafe es (isSafe_object.1 h)]
  | _ => rw [sanitize] <;> simp

theorem sanitizeList_of_isSafe (vs : List Json) (h : ∀ v ∈ vs, v.isSafe = true) :
    sanitizeList vs = vs := by
  cases vs with
  | nil => rw [sanitizeList]
  | cons v vs =>
    obtain ⟨hv, hvs⟩ := List.forall_mem_cons.1 h
    rw [sanitizeList, sanitize_of_isSafe v hv, sanitizeList_of_isSafe vs hvs]

theorem sanitizeEntries_of_isSafe (es : List (String × Json))
    (h : ∀ e ∈ es, isUnsafeKey e.1 = false ∧ e.2.isSafe = true) : sanitizeEntries es = es := by
  cases es with
  | nil => rw [sanitizeEntries]
  | cons e es =>
    obtain ⟨k, v⟩ := e
    obtain ⟨⟨hk, hv⟩, hes⟩ := List.forall_mem_cons.1 h
    rw [sanitizeEntries, if_neg (by simp [hk]), sanitize_of_isSafe v hv,
      sanitizeEntries_of_isSafe es hes]

end

/-! ### Entries in turn -/

/-- A value laid over what may stand under its key: where nothing does, it is carried over. -/
def lay : Option Json → Json → Json
  | some old, v => old.merge v
  | none, v => v.sanitize

/-- **Merging entries, one at a time.** -/
theorem mergeEntries_cons (target : List (String × Json)) (k : String) (v : Json)
    (source : List (String × Json)) : mergeEntries target ((k, v) :: source) =
      if isUnsafeKey k then mergeEntries target source
      else mergeEntries (Entries.insert target k (lay (Entries.get? target k) v)) source := by
  rw [mergeEntries]
  split
  · rfl
  · cases hget : Entries.get? target k with
    | some old => rfl
    | none => rw [Entries.insert_of_get?_eq_none _ hget, lay]

theorem mergeEntries_append (target xs ys : List (String × Json)) :
    mergeEntries target (xs ++ ys) = mergeEntries (mergeEntries target xs) ys := by
  induction xs generalizing target with
  | nil => rw [List.nil_append, mergeEntries]
  | cons x xs ih =>
    obtain ⟨k, v⟩ := x
    rw [List.cons_append, mergeEntries_cons, mergeEntries_cons]
    split <;> exact ih _

variable {xs ys es : List (String × Json)}

/-- Entries in front are left alone if their keys do not come again. -/
theorem mergeEntries_append_of_disjoint (h : List.Disjoint (Entries.keys xs) (Entries.keys es)) :
    mergeEntries (xs ++ ys) es = xs ++ mergeEntries ys es := by
  induction es generalizing ys with
  | nil => rw [mergeEntries, mergeEntries]
  | cons e es ih =>
    obtain ⟨k, v⟩ := e
    obtain ⟨hk, hes⟩ := List.disjoint_cons_right.1 h
    rw [mergeEntries_cons, mergeEntries_cons, Entries.get?_append, Entries.get?_eq_none_iff.2 hk,
      Option.none_or, Entries.insert_append_of_not_mem _ _ hk]
    split <;> exact ih hes

/-- Entries behind are left alone if all keys are found before them. -/
theorem mergeEntries_append_of_subset (h : ∀ k ∈ Entries.keys es, k ∈ Entries.keys xs) :
    mergeEntries (xs ++ ys) es = mergeEntries xs es ++ ys := by
  induction es generalizing xs with
  | nil => rw [mergeEntries, mergeEntries]
  | cons e es ih =>
    obtain ⟨k, v⟩ := e
    obtain ⟨hk, hes⟩ := List.forall_mem_cons.1 h
    obtain ⟨old, hold⟩ := Entries.exists_get?_of_mem_keys hk
    rw [mergeEntries_cons, mergeEntries_cons, Entries.get?_append, hold, Option.some_or,
      Entries.insert_append_of_mem _ _ hk]
    split
    · exact ih hes
    · refine ih fun k' hk' => ?_
      rw [Entries.keys_insert_of_mem _ hk]
      exact hes k' hk'

/-- Entries with different keys that are laid over nothing are carried over. -/
theorem mergeEntries_nil_left (hkeys : (Entries.keys es).Nodup) (h : (object es).isSafe = true) :
    mergeEntries [] es = es := by
  induction es with
  | nil => rw [mergeEntries]
  | cons e es ih =>
    obtain ⟨k, v⟩ := e
    obtain ⟨hk, hnodup⟩ := List.nodup_cons.1 hkeys
    obtain ⟨⟨hsafe, hv⟩, hes⟩ := List.forall_mem_cons.1 (isSafe_object.1 h)
    have hdisjoint : List.Disjoint (Entries.keys [(k, v)]) (Entries.keys es) := by
      rw [Entries.keys_cons, Entries.keys_nil, List.singleton_disjoint]
      exact hk
    rw [mergeEntries_cons, if_neg (by simp [hsafe]), Entries.get?_nil, lay,
      sanitize_of_isSafe v hv, Entries.insert, ← List.append_nil [(k, v)],
      mergeEntries_append_of_disjoint hdisjoint, ih hnodup (isSafe_object.2 hes)]
    rfl

/-- One entry over another with its key. -/
theorem mergeEntries_singleton {k : String} (hk : isUnsafeKey k = false) (old v : Json) :
    mergeEntries [(k, old)] [(k, v)] = [(k, old.merge v)] := by
  rw [mergeEntries_cons, if_neg (by simp [hk]), mergeEntries]
  simp [Entries.get?_cons, Entries.insert, lay]

/-! ### A list and an object over anything -/

/-- The items that a list is joined to: those of a list, and otherwise none. -/
def items : Json → List Json
  | array vs => vs
  | _ => []

theorem merge_array_eq_append (v : Json) (vs : List Json) :
    v.merge (array vs) = array (v.items ++ sanitizeList vs) := by
  cases v <;> simp [merge, items]

theorem merge_array (v : Json) {vs : List Json} (h : ∀ w ∈ vs, w.isSafe = true) :
    v.merge (array vs) = array (v.items ++ vs) := by
  rw [merge_array_eq_append, sanitizeList_of_isSafe vs h]

theorem merge_object_eq_sanitize {v : Json} (hv : v.isObject = false) (es : List (String × Json)) :
    v.merge (object es) = (object es).sanitize := by
  cases v with
  | object es' => cases hv
  | _ => simp [merge, sanitize]

theorem merge_object_of_not_object {v : Json} (hv : v.isObject = false)
    (h : (object es).isSafe = true) : v.merge (object es) = object es := by
  rw [merge_object_eq_sanitize hv, sanitize_of_isSafe _ h]

theorem merge_object_object {es' : List (String × Json)} (h : (object es').isSafe = true) :
    (object es').merge (object es) = object (mergeEntries es' es) := by
  rw [merge, Entries.safeEntries_of_forall fun e he => (isSafe_object.1 h e he).1]

end Json

end Sieve
