import Sieve.Json.Value

/-!
# Documents without repeated keys

The objects of a document are lists of entries, and nothing in the type keeps a key from coming
twice. A document that was read from text, or that a program holds as a map, has no such object.

## Main definitions

* `Json.distinct` — no object at any depth has a key twice

## Main results

* `Json.distinct_array`, `Json.distinct_object` — one level at a time
-/

namespace Sieve.Json

mutual

/-- No object in the value, at any depth, has a key twice. -/
def distinct : Json → Bool
  | array items => distinctList items
  | object entries => decide (Entries.keys entries).Nodup && distinctEntries entries
  | _ => true

/-- `distinct` of each item. -/
def distinctList : List Json → Bool
  | [] => true
  | v :: vs => v.distinct && distinctList vs

/-- `distinct` of the value of each entry. -/
def distinctEntries : List (String × Json) → Bool
  | [] => true
  | (_, v) :: es => v.distinct && distinctEntries es

end

theorem distinctList_eq_all (vs : List Json) : distinctList vs = vs.all distinct := by
  induction vs with
  | nil => rfl
  | cons v vs ih => rw [distinctList, ih, List.all_cons]

theorem distinctEntries_eq_all (es : List (String × Json)) :
    distinctEntries es = es.all fun e => e.2.distinct := by
  induction es with
  | nil => rfl
  | cons e es ih =>
    obtain ⟨k, v⟩ := e
    rw [distinctEntries, ih, List.all_cons]

theorem distinct_array {vs : List Json} :
    (array vs).distinct = true ↔ ∀ v ∈ vs, v.distinct = true := by
  rw [distinct, distinctList_eq_all, List.all_eq_true]

theorem distinct_object {es : List (String × Json)} :
    (object es).distinct = true ↔
      (Entries.keys es).Nodup ∧ ∀ e ∈ es, e.2.distinct = true := by
  rw [distinct, distinctEntries_eq_all, Bool.and_eq_true, decide_eq_true_iff, List.all_eq_true]

end Sieve.Json
