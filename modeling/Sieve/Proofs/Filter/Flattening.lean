import Sieve.Filter.Triple
import Sieve.Proofs.Filter.Pieces

/-!
# Flattening parameters

A parameter is flattened by walking its value: each leaf, with the keys of the objects around it,
gives one triple. The path of the triple is what these keys spell, one after the other.

A key is taken as a whole if there is nothing to cut in it, and for the empty key this is not what
reading the key gives: its path is one empty field, and not the empty path. It is the only such key.

## Main definitions

* `Json.leaves` — what is no object in a value, with the keys that lead to it through objects

## Main results

* `triples_eq_map_leaves` — one triple for each leaf, in order
* `keyPath_of_ne_empty`, `empty_mem_keyPath_iff` — the segments of a key, and where an empty one is
* `triples_eq_singleton_iff_and_nonempty_fields_iff` — when a parameter is read as its key is, and
  when no triple has an empty field
-/

namespace Sieve

/-! ### Leaves -/

namespace Json

mutual

/-- What is no object in the value, in order, each with the keys that lead to it through objects. -/
def leaves : Json → List (List String × Json)
  | object entries => leavesOfEntries entries
  | v => [([], v)]

/-- The leaves of the entries of an object. -/
def leavesOfEntries : List (String × Json) → List (List String × Json)
  | [] => []
  | (k, v) :: es => (leaves v).map (fun leaf => (k :: leaf.1, leaf.2)) ++ leavesOfEntries es

end

theorem leaves_of_not_object {v : Json} (hv : v.isObject = false) : v.leaves = [([], v)] := by
  cases v with
  | object es => simp [isObject] at hv
  | _ => rw [leaves]; simp

mutual

/-- No leaf is an object. -/
theorem isObject_of_mem_leaves (v : Json) : ∀ leaf ∈ v.leaves, leaf.2.isObject = false := by
  cases v with
  | object es =>
    rw [leaves]
    exact isObject_of_mem_leavesOfEntries es
  | _ => simp [leaves, isObject]

theorem isObject_of_mem_leavesOfEntries (es : List (String × Json)) :
    ∀ leaf ∈ leavesOfEntries es, leaf.2.isObject = false := by
  cases es with
  | nil => simp [leavesOfEntries]
  | cons e es =>
    obtain ⟨k, v⟩ := e
    rw [leavesOfEntries, List.forall_mem_append, List.forall_mem_map]
    exact ⟨isObject_of_mem_leaves v, isObject_of_mem_leavesOfEntries es⟩

end

end Json

namespace Filter

/-- A value that is no object ends its path. -/
theorem triplesAt_of_not_object {v : Json} (hv : v.isObject = false) (path : List String) :
    triplesAt path v = [Triple.ofPath path v] := by
  cases v with
  | object es => simp [Json.isObject] at hv
  | _ => simp [triplesAt]

/-- The triple of a leaf below a path. -/
def leafTriple (path : List String) (leaf : List String × Json) : Triple :=
  Triple.ofPath (path ++ leaf.1.flatMap keyPath) leaf.2

mutual

/-- **One triple for each leaf**, in order. -/
theorem triplesAt_eq_map_leaves (path : List String) (v : Json) :
    triplesAt path v = v.leaves.map (leafTriple path) := by
  cases v with
  | object es =>
    rw [triplesAt, Json.leaves]
    exact triplesOfEntries_eq_map_leaves path es
  | _ => simp [triplesAt, Json.leaves, leafTriple]

theorem triplesOfEntries_eq_map_leaves (path : List String) (es : List (String × Json)) :
    triplesOfEntries path es = (Json.leavesOfEntries es).map (leafTriple path) := by
  cases es with
  | nil => simp [triplesOfEntries, Json.leavesOfEntries]
  | cons e es =>
    obtain ⟨k, v⟩ := e
    have hbelow : leafTriple (path ++ keyPath k) =
        leafTriple path ∘ fun leaf => (k :: leaf.1, leaf.2) := by
      funext leaf
      simp [leafTriple]
    rw [triplesOfEntries, Json.leavesOfEntries, List.map_append, List.map_map,
      triplesAt_eq_map_leaves, triplesOfEntries_eq_map_leaves, hbelow]

end

theorem triples_eq_map_leaves (key : String) (value : Json) :
    triples key value = value.leaves.map (leafTriple (keyPath key)) :=
  triplesAt_eq_map_leaves _ _

/-! ### The segments of a key -/

theorem keyPath_empty : keyPath "" = [""] := by decide

theorem keyPath_of_ne_empty {key : String} (h : key ≠ "") : keyPath key = segments key := by
  rw [keyPath]
  cases hcut : needsCutting key.toList with
  | true => rw [if_pos rfl]
  | false => rw [if_neg Bool.false_ne_true, segments_of_needsCutting_eq_false hcut h]

/-- Only the empty key adds an empty segment. -/
theorem empty_mem_keyPath_iff {key : String} : "" ∈ keyPath key ↔ key = "" := by
  by_cases h : key = ""
  · simp [h, keyPath_empty]
  · simp [h, keyPath_of_ne_empty h, empty_not_mem_segments]

theorem empty_mem_flatMap_keyPath_iff {keys : List String} :
    "" ∈ keys.flatMap keyPath ↔ "" ∈ keys := by
  rw [List.mem_flatMap]
  constructor
  · rintro ⟨key, hkey, hempty⟩
    rwa [← empty_mem_keyPath_iff.1 hempty]
  · intro hempty
    exact ⟨"", hempty, empty_mem_keyPath_iff.2 rfl⟩

/-! ### Empty fields -/

theorem ofName?_empty : Operator.ofName? "" = none := by decide

/-- Taking an operator off takes no empty field off. -/
theorem empty_mem_fields_ofPath_iff {path : List String} {v : Json} :
    "" ∈ (Triple.ofPath path v).fields ↔ "" ∈ path := by
  rcases List.eq_nil_or_concat path with rfl | ⟨init, last, rfl⟩
  · simp [Triple.ofPath, splitOperator]
  · rw [List.concat_eq_append]
    simp only [Triple.ofPath, splitOperator, List.getLast?_concat, Option.bind_some,
      List.dropLast_concat]
    cases hlast : Operator.ofName? last with
    | none => rfl
    | some op =>
      have hne : last ≠ "" := by
        rintro rfl
        rw [ofName?_empty] at hlast
        cases hlast
      by_cases hinit : init = []
      · simp [hinit, hne.symm]
      · simp [hinit, hne.symm]

theorem leafTriple_eq_parse_iff {key : String} {v : Json} :
    leafTriple (keyPath key) ([], v) = ⟨(Key.parse key).fields, (Key.parse key).operator, v⟩ ↔
      key ≠ "" := by
  constructor
  · rintro h rfl
    have hfields : [""] = (Key.parse "").fields := by
      rw [keyPath_empty] at h
      exact congrArg Triple.fields h
    rw [Key.parse, segments_empty] at hfields
    cases hfields
  · intro h
    rw [leafTriple, List.flatMap_nil, List.append_nil, keyPath_of_ne_empty h]
    rfl

/-- **When a parameter is read as its key is, and when no triple has an empty field.** A parameter
gives one triple, with the fields and the operator of its key, exactly if its value is no object and
its key is not empty. No triple has an empty field exactly if no key on the way to a leaf is
empty. -/
theorem triples_eq_singleton_iff_and_nonempty_fields_iff (key : String) (value : Json) :
    (triples key value = [⟨(Key.parse key).fields, (Key.parse key).operator, value⟩] ↔
      value.isObject = false ∧ key ≠ "") ∧
    ((∀ t ∈ triples key value, "" ∉ t.fields) ↔ ∀ leaf ∈ value.leaves, "" ∉ key :: leaf.1) := by
  rw [triples_eq_map_leaves]
  constructor
  · constructor
    · intro h
      have hmem : (⟨(Key.parse key).fields, (Key.parse key).operator, value⟩ : Triple) ∈
          value.leaves.map (leafTriple (keyPath key)) := by simp [h]
      obtain ⟨leaf, hleaf, heq⟩ := List.mem_map.1 hmem
      have hvalue : leaf.2 = value := congrArg Triple.value heq
      have hobj : value.isObject = false := hvalue ▸ Json.isObject_of_mem_leaves value leaf hleaf
      rw [Json.leaves_of_not_object hobj, List.map_singleton, List.singleton_inj] at h
      exact ⟨hobj, leafTriple_eq_parse_iff.1 h⟩
    · rintro ⟨hobj, hkey⟩
      rw [Json.leaves_of_not_object hobj, List.map_singleton, leafTriple_eq_parse_iff.2 hkey]
  · rw [List.forall_mem_map]
    refine forall_congr' fun leaf => forall_congr' fun _ => not_congr ?_
    rw [leafTriple, empty_mem_fields_ofPath_iff, List.mem_append, empty_mem_keyPath_iff,
      empty_mem_flatMap_keyPath_iff, List.mem_cons, eq_comm]

end Filter

end Sieve
