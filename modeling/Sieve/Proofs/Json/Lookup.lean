import Sieve.Json.Merge

/-!
# Looking into documents

Two readings of a JSON document that theorems are stated with: what stands at a path of keys, and
whether some object in it has an unsafe key. Paths go through objects only. Both readings are tied
here to the lists of entries that objects are made of.

## Main definitions

* `Json.get?`, `Json.getPath?` — the value of a key, and of a path of keys
* `Json.isSafe` — no object at any depth has an unsafe key

## Main results

* `Entries.mem_iff_get?` — without repeated keys, to be an entry is to be found
* `Entries.get?_append`, `Entries.get?_safeEntries` — looking into joined and into filtered entries
* `Json.isSafe_object`, `Json.isSafe_array` — safety, one level at a time
-/

namespace Sieve

universe u

/-! ### Entries -/

namespace Entries

variable {α : Type u}

theorem mem_of_get? {es : Entries α} {key : String} {value : α} (h : get? es key = some value) :
    (key, value) ∈ es := by
  induction es with
  | nil => simp at h
  | cons p es ih =>
    obtain ⟨k, v⟩ := p
    rw [get?_cons] at h
    split at h
    · next hk =>
      obtain rfl : v = value := by simpa using h
      simp [hk]
    · exact List.mem_cons_of_mem _ (ih h)

theorem exists_get?_of_mem_keys {es : Entries α} {key : String} (h : key ∈ keys es) :
    ∃ value, get? es key = some value :=
  Option.ne_none_iff_exists'.1 fun hnone => get?_eq_none_iff.1 hnone h

theorem mem_keys_of_get? {es : Entries α} {key : String} {value : α}
    (h : get? es key = some value) : key ∈ keys es :=
  List.mem_map_of_mem (mem_of_get? h)

theorem mem_iff_get? {es : Entries α} (hes : (keys es).Nodup) {key : String} {value : α} :
    (key, value) ∈ es ↔ get? es key = some value := by
  refine ⟨fun h => ?_, mem_of_get?⟩
  induction es with
  | nil => simp at h
  | cons p es ih =>
    obtain ⟨k, v⟩ := p
    obtain ⟨hk, hes⟩ := List.nodup_cons.1 hes
    rw [get?_cons]
    rcases List.mem_cons.1 h with h | h
    · obtain ⟨rfl, rfl⟩ := Prod.mk.inj h
      simp
    · have hmem : key ∈ keys es := List.mem_map_of_mem h
      have hne : k ≠ key := fun e => hk (e ▸ hmem)
      rw [if_neg hne]
      exact ih hes h

theorem get?_append (xs ys : Entries α) (key : String) :
    get? (xs ++ ys) key = (get? xs key).or (get? ys key) := by
  induction xs with
  | nil => simp
  | cons p xs ih =>
    obtain ⟨k, v⟩ := p
    rw [List.cons_append, get?_cons, get?_cons, ih]
    split <;> simp

theorem get?_map_snd {β : Type u} (f : α → β) (es : Entries α) (key : String) :
    get? (es.map fun p => (p.1, f p.2)) key = (get? es key).map f := by
  induction es with
  | nil => rfl
  | cons p es ih =>
    obtain ⟨k, v⟩ := p
    rw [List.map_cons, get?_cons, get?_cons, ih]
    split <;> rfl

theorem insert_of_get?_eq_none {es : Entries α} {key : String} (value : α)
    (h : get? es key = none) : insert es key value = es ++ [(key, value)] := by
  induction es with
  | nil => rfl
  | cons p es ih =>
    obtain ⟨k, v⟩ := p
    rw [get?_cons] at h
    split at h
    · simp at h
    · next hk => rw [insert, if_neg hk, ih h, List.cons_append]

/-- A write adds one entry and keeps no others but those that were there. -/
theorem eq_or_mem_of_mem_insert {es : Entries α} {key : String} {value : α} {p : String × α}
    (h : p ∈ insert es key value) : p = (key, value) ∨ p ∈ es := by
  induction es with
  | nil => exact Or.inl (by simpa [insert] using h)
  | cons q es ih =>
    obtain ⟨k, v⟩ := q
    rw [insert] at h
    split at h
    · next hk =>
      rcases List.mem_cons.1 h with rfl | h
      · exact Or.inl (by rw [hk])
      · exact Or.inr (List.mem_cons_of_mem _ h)
    · rcases List.mem_cons.1 h with rfl | h
      · exact Or.inr List.mem_cons_self
      · rcases ih h with h | h
        · exact Or.inl h
        · exact Or.inr (List.mem_cons_of_mem _ h)

/-! ### Entries without unsafe keys -/

theorem mem_safeEntries {es : Entries α} {p : String × α} :
    p ∈ safeEntries es ↔ p ∈ es ∧ isUnsafeKey p.1 = false := by
  simp [safeEntries]

theorem get?_safeEntries (es : Entries α) (key : String) :
    get? (safeEntries es) key = if isUnsafeKey key then none else get? es key := by
  induction es with
  | nil => simp [safeEntries]
  | cons p es ih =>
    obtain ⟨k, v⟩ := p
    rw [safeEntries] at ih ⊢
    rw [List.filter_cons]
    by_cases hk : k = key
    · subst hk
      cases hu : isUnsafeKey k <;> simp [hu, ih, get?_cons]
    · split <;> simp [get?_cons, hk, ih]

theorem nodup_keys_safeEntries {es : Entries α} (h : (keys es).Nodup) :
    (keys (safeEntries es)).Nodup :=
  (List.filter_sublist.map Prod.fst).nodup h

end Entries

/-! ### Documents -/

namespace Json

/-- The value of a key of an object. -/
def get? : Json → String → Option Json
  | object entries, key => Entries.get? entries key
  | _, _ => none

/-- The value at the end of a path of keys, each of them a key of an object. -/
def getPath? (v : Json) : List String → Option Json
  | [] => some v
  | key :: path => (v.get? key).bind fun child => child.getPath? path

@[simp] theorem getPath?_nil (v : Json) : v.getPath? [] = some v := rfl

theorem getPath?_cons (v : Json) (key : String) (path : List String) :
    v.getPath? (key :: path) = (v.get? key).bind fun child => child.getPath? path := rfl

@[simp] theorem get?_object (entries : List (String × Json)) (key : String) :
    (object entries).get? key = Entries.get? entries key := rfl

/-- No object at any depth, in lists too, has an unsafe key. -/
def isSafe (v : Json) : Bool := v.allKeys fun key => !isUnsafeKey key

theorem allKeysList_eq_all (p : String → Bool) (vs : List Json) :
    allKeysList p vs = vs.all (allKeys p) := by
  induction vs with
  | nil => rfl
  | cons v vs ih => rw [allKeysList, ih, List.all_cons]

theorem allKeysEntries_eq_all (p : String → Bool) (es : List (String × Json)) :
    allKeysEntries p es = es.all fun e => p e.1 && e.2.allKeys p := by
  induction es with
  | nil => rfl
  | cons e es ih =>
    obtain ⟨k, v⟩ := e
    rw [allKeysEntries, ih, List.all_cons]

theorem isSafe_array {vs : List Json} : (array vs).isSafe = true ↔ ∀ v ∈ vs, v.isSafe = true := by
  rw [isSafe, allKeys, allKeysList_eq_all, List.all_eq_true]
  rfl

theorem isSafe_object {es : List (String × Json)} :
    (object es).isSafe = true ↔ ∀ e ∈ es, isUnsafeKey e.1 = false ∧ e.2.isSafe = true := by
  rw [isSafe, allKeys, allKeysEntries_eq_all, List.all_eq_true]
  simp [isSafe]

end Json

end Sieve
