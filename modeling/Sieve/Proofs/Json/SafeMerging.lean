import Sieve.Proofs.Json.Merging

/-!
# Merging lets no unsafe key in

A document without unsafe keys stays one, whatever is laid over it. Wherever merging does not go on
inside what is there, what is laid over is carried over without its unsafe keys; and where it does
go on, an unsafe key is passed by. So it makes no difference whether unsafe keys are dropped
beforehand.

## Main results

* `Json.isSafe_sanitize` — what is carried over has no unsafe key
* `Json.isSafe_merge` — merging lets no unsafe key in
* `Json.merge_sanitize` — what stands under an unsafe key makes no difference
-/

namespace Sieve.Json

/-! ### What is carried over -/

mutual

/-- **What is carried over has no unsafe key**, at any depth. -/
theorem isSafe_sanitize (v : Json) : v.sanitize.isSafe = true := by
  cases v with
  | array vs =>
    rw [sanitize, isSafe_array]
    exact isSafe_of_mem_sanitizeList vs
  | object es =>
    rw [sanitize, isSafe_object]
    exact isSafe_of_mem_sanitizeEntries es
  | _ => rfl

theorem isSafe_of_mem_sanitizeList (vs : List Json) : ∀ v ∈ sanitizeList vs, v.isSafe = true := by
  cases vs with
  | nil => exact nofun
  | cons v vs =>
    rw [sanitizeList]
    exact List.forall_mem_cons.2 ⟨isSafe_sanitize v, isSafe_of_mem_sanitizeList vs⟩

theorem isSafe_of_mem_sanitizeEntries (es : List (String × Json)) :
    ∀ e ∈ sanitizeEntries es, isUnsafeKey e.1 = false ∧ e.2.isSafe = true := by
  cases es with
  | nil => exact nofun
  | cons e es =>
    obtain ⟨k, v⟩ := e
    rw [sanitizeEntries]
    split
    · exact isSafe_of_mem_sanitizeEntries es
    · next hk =>
      have hv : isUnsafeKey k = false ∧ v.sanitize.isSafe = true :=
        ⟨Bool.eq_false_iff.2 hk, isSafe_sanitize v⟩
      exact List.forall_mem_cons.2 ⟨hv, isSafe_of_mem_sanitizeEntries es⟩

end

/-- Dropping unsafe keys once is enough. -/
theorem sanitize_sanitize (v : Json) : v.sanitize.sanitize = v.sanitize :=
  sanitize_of_isSafe _ (isSafe_sanitize v)

theorem isSafe_items {v : Json} (h : v.isSafe = true) : ∀ w ∈ v.items, w.isSafe = true := by
  cases v with
  | array vs => exact isSafe_array.1 h
  | _ => exact nofun

/-! ### What is laid over -/

mutual

/-- **Merging lets no unsafe key in**, whatever is laid over. -/
theorem isSafe_merge {target : Json} (h : target.isSafe = true) (source : Json) :
    (target.merge source).isSafe = true := by
  cases source with
  | array vs =>
    rw [merge_array_eq_append, isSafe_array]
    exact List.forall_mem_append.2 ⟨isSafe_items h, isSafe_of_mem_sanitizeList vs⟩
  | object es =>
    cases hobject : target.isObject with
    | false =>
      rw [merge_object_eq_sanitize hobject]
      exact isSafe_sanitize (object es)
    | true =>
      cases target with
      | object target =>
        rw [merge_object_object h]
        exact isSafe_mergeEntries h es
      | _ => cases hobject
  | _ => rfl

theorem isSafe_mergeEntries {target : List (String × Json)} (h : (object target).isSafe = true)
    (source : List (String × Json)) : (object (mergeEntries target source)).isSafe = true := by
  cases source with
  | nil => rwa [mergeEntries]
  | cons e es =>
    obtain ⟨k, v⟩ := e
    rw [mergeEntries_cons]
    split
    · exact isSafe_mergeEntries h es
    · next hk =>
      refine isSafe_mergeEntries (isSafe_object.2 fun p hp => ?_) es
      rcases Entries.eq_or_mem_of_mem_insert hp with rfl | hp
      · refine ⟨Bool.eq_false_iff.2 hk, ?_⟩
        cases hget : Entries.get? target k with
        | none => exact isSafe_sanitize v
        | some old =>
          exact isSafe_merge (isSafe_object.1 h _ (Entries.mem_of_get? hget)).2 v
      · exact isSafe_object.1 h p hp

end

mutual

/-- **What stands under an unsafe key makes no difference**: it may as well be dropped from what is
laid over. -/
theorem merge_sanitize (target source : Json) :
    target.merge source.sanitize = target.merge source := by
  cases source with
  | array vs =>
    rw [merge_array_eq_append, sanitize, merge_array_eq_append,
      sanitizeList_of_isSafe _ (isSafe_of_mem_sanitizeList vs)]
  | object es =>
    cases hobject : target.isObject with
    | false =>
      have hidem := sanitize_sanitize (object es)
      rw [sanitize] at hidem ⊢
      rw [merge_object_eq_sanitize hobject, merge_object_eq_sanitize hobject, hidem, sanitize]
    | true =>
      cases target with
      | object target => rw [sanitize, merge, merge, mergeEntries_sanitizeEntries]
      | _ => cases hobject
  | _ => rw [sanitize] <;> exact nofun

theorem mergeEntries_sanitizeEntries (target source : List (String × Json)) :
    mergeEntries target (sanitizeEntries source) = mergeEntries target source := by
  cases source with
  | nil => rw [sanitizeEntries]
  | cons e es =>
    obtain ⟨k, v⟩ := e
    rw [sanitizeEntries, mergeEntries_cons]
    split
    · exact mergeEntries_sanitizeEntries target es
    · next hk =>
      have hlay : lay (Entries.get? target k) v.sanitize = lay (Entries.get? target k) v := by
        cases Entries.get? target k with
        | none => exact sanitize_sanitize v
        | some old => exact merge_sanitize old v
      rw [mergeEntries_cons, if_neg hk, hlay]
      exact mergeEntries_sanitizeEntries _ es

end

end Sieve.Json
