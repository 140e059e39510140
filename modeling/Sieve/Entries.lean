/-!
# Ordered entries

A list of key-value pairs, read as a map that remembers the order of first insertion. Writing a key
that is present replaces its value in place; a new key goes to the end. Objects, branches and
parameters are all of this shape.

## Main definitions

* `Entries.keys`, `Entries.get?`, `Entries.contains` — reading
* `Entries.insert`, `Entries.erase`, `Entries.ofList` — writing

## Main results

* `Entries.keys_insert_of_mem`, `Entries.keys_insert_of_not_mem` — what a write does to the keys
* `Entries.get?_insert_self`, `Entries.get?_insert_of_ne` — what it does to look-ups
* `Entries.nodup_keys_insert` — keys stay distinct
-/

namespace Sieve

universe u

/-- Key-value pairs in order of first insertion. -/
abbrev Entries (α : Type u) := List (String × α)

namespace Entries

variable {α : Type u}

/-- The keys in order. -/
def keys (es : Entries α) : List String := es.map Prod.fst

/-- The value of a key. -/
def get? : Entries α → String → Option α
  | [], _ => none
  | (k, v) :: es, key => if k = key then some v else get? es key

/-- The key has a value. -/
def contains (es : Entries α) (key : String) : Bool := (es.get? key).isSome

/-- Sets the value of a key: in place if it is present, else at the end. -/
def insert : Entries α → String → α → Entries α
  | [], key, value => [(key, value)]
  | (k, v) :: es, key, value =>
    if k = key then (k, value) :: es else (k, v) :: insert es key value

/-- Drops a key. -/
def erase : Entries α → String → Entries α
  | [], _ => []
  | (k, v) :: es, key => if k = key then es else (k, v) :: erase es key

/-- Writes the pairs in turn, so that a repeated key keeps its first place and its last value. -/
def ofList (pairs : List (String × α)) : Entries α :=
  pairs.foldl (fun es p => es.insert p.1 p.2) []

@[simp] theorem keys_nil : keys ([] : Entries α) = [] := rfl

@[simp] theorem keys_cons (p : String × α) (es : Entries α) :
    keys (p :: es) = p.1 :: keys es := rfl

@[simp] theorem get?_nil (key : String) : get? ([] : Entries α) key = none := rfl

theorem get?_cons (k : String) (v : α) (es : Entries α) (key : String) :
    get? ((k, v) :: es) key = if k = key then some v else get? es key := rfl

theorem get?_eq_none_iff {es : Entries α} {key : String} :
    get? es key = none ↔ key ∉ keys es := by
  induction es with
  | nil => simp
  | cons p es ih =>
    obtain ⟨k, v⟩ := p
    by_cases h : k = key
    · simp [get?_cons, h]
    · simp [get?_cons, h, ih, Ne.symm h]

theorem keys_insert_of_mem {es : Entries α} {key : String} (value : α) (h : key ∈ keys es) :
    keys (insert es key value) = keys es := by
  induction es with
  | nil => simp at h
  | cons p es ih =>
    obtain ⟨k, v⟩ := p
    by_cases hk : k = key
    · simp [insert, hk]
    · have : key ∈ keys es := by simpa [Ne.symm hk] using h
      simp [insert, hk, ih this]

theorem keys_insert_of_not_mem {es : Entries α} {key : String} (value : α) (h : key ∉ keys es) :
    keys (insert es key value) = keys es ++ [key] := by
  induction es with
  | nil => rfl
  | cons p es ih =>
    obtain ⟨k, v⟩ := p
    have hk : k ≠ key := fun e => h (by simp [e])
    have : key ∉ keys es := fun e => h (by simp [e])
    simp [insert, hk, ih this]

@[simp] theorem get?_insert_self (es : Entries α) (key : String) (value : α) :
    get? (insert es key value) key = some value := by
  induction es with
  | nil => simp [insert, get?_cons]
  | cons p es ih =>
    obtain ⟨k, v⟩ := p
    by_cases hk : k = key
    · simp [insert, get?_cons, hk]
    · simp [insert, get?_cons, hk, ih]

theorem get?_insert_of_ne {es : Entries α} {key other : String} (value : α) (h : other ≠ key) :
    get? (insert es key value) other = get? es other := by
  induction es with
  | nil => simp [insert, get?_cons, Ne.symm h]
  | cons p es ih =>
    obtain ⟨k, v⟩ := p
    by_cases hk : k = key
    · subst hk
      simp [insert, get?_cons, Ne.symm h]
    · simp [insert, get?_cons, hk, ih]

theorem nodup_keys_insert {es : Entries α} {key : String} (value : α) (h : (keys es).Nodup) :
    (keys (insert es key value)).Nodup := by
  by_cases hk : key ∈ keys es
  · rw [keys_insert_of_mem value hk]
    exact h
  · rw [keys_insert_of_not_mem value hk]
    refine List.nodup_append.2 ⟨h, by simp, fun a ha b hb => ?_⟩
    simp only [List.mem_singleton] at hb
    exact fun e => hk (by rwa [← hb, ← e])

end Entries

end Sieve
