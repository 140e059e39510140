import Mathlib.Data.List.Forall2
import Mathlib.Data.List.Infix
import Sieve.Proofs.Filter.Flattening

/-!
# Nested parameters as flat keys

A parameter that holds nested objects says the same as several flat ones: for each leaf, the keys on
the way to it, joined by separators. The walk through the objects cuts every key on its own, and the
flat key is cut as a whole, so the two agree as long as no key runs into the separator behind it.

An operator counts only at the very end of a path. Whatever stands before the end is a field, also
where it is spelled like an operator.

## Main definitions

* `Joinable` — a key that a separator can follow
* `flatKey` — keys joined by separators

## Main results

* `keyPath_flatKey` — the segments of a flat key are those of its parts
* `Triple.endsOnly_ofPath` — only the last segment of a path may be an operator
* `triples_eq_flatMap_triples_flatKey` — a nested parameter is read as its flat keys are
-/

namespace Sieve.Filter

/-- A separator can follow the key: it is not empty, opens no bracket, and does not end in an
underscore. -/
structure Joinable (key : String) : Prop where
  ne_empty : key ≠ ""
  no_bracket : '[' ∉ key.toList
  no_underscore : key.toList.getLast? ≠ some '_'

instance (key : String) : Decidable (Joinable key) :=
  decidable_of_iff (key ≠ "" ∧ '[' ∉ key.toList ∧ key.toList.getLast? ≠ some '_')
    ⟨fun h => ⟨h.1, h.2.1, h.2.2⟩, fun h => ⟨h.ne_empty, h.no_bracket, h.no_underscore⟩⟩

/-- Keys joined by separators. -/
def flatKey (keys : List String) : String := "__".intercalate keys

/-! ### The segments of a flat key -/

theorem toList_flatKey_cons_cons (key next : String) (keys : List String) :
    (flatKey (key :: next :: keys)).toList =
      key.toList ++ '_' :: '_' :: (flatKey (next :: keys)).toList := by
  simp [flatKey, String.toList_intercalate]

theorem segments_flatKey {keys : List String} (h : ∀ key ∈ keys, Joinable key) :
    segments (flatKey keys) = keys.flatMap segments := by
  induction keys with
  | nil => exact segments_empty
  | cons key keys ih =>
    obtain ⟨hkey, hkeys⟩ := List.forall_mem_cons.1 h
    cases keys with
    | nil => simp [flatKey]
    | cons next keys =>
      rw [List.flatMap_cons, ← ih hkeys, segments, toList_flatKey_cons_cons,
        pieces_append_separator hkey.no_bracket hkey.no_underscore, List.filterMap_append,
        List.map_append]
      rfl

theorem flatKey_ne_empty {key : String} (hkey : key ≠ "") (keys : List String) :
    flatKey (key :: keys) ≠ "" := by
  have hchars : key.toList ≠ [] := by simpa using hkey
  intro hempty
  cases keys with
  | nil => exact hkey (by simpa [flatKey] using hempty)
  | cons next keys =>
    have hlist := congrArg String.toList hempty
    rw [toList_flatKey_cons_cons] at hlist
    simp at hlist

/-- **The segments of a flat key are those of its parts**, one after the other. -/
theorem keyPath_flatKey {key : String} {keys : List String} (h : ∀ k ∈ key :: keys, Joinable k) :
    keyPath (flatKey (key :: keys)) = (key :: keys).flatMap keyPath := by
  have hparts : (key :: keys).flatMap keyPath = (key :: keys).flatMap segments :=
    List.flatMap_congr fun k hk => keyPath_of_ne_empty (h k hk).ne_empty
  have hne : flatKey (key :: keys) ≠ "" := flatKey_ne_empty (h key (by simp)).ne_empty keys
  rw [keyPath_of_ne_empty hne, segments_flatKey h, hparts]

/-! ### The end of a path -/

/-- The triple is what the path says, of which only the last segment can be an operator: all
segments before it are fields, the fields are nothing else, and an operator stands right behind
them. -/
structure Triple.EndsOnly (t : Triple) (path : List String) : Prop where
  dropLast_prefix : path.dropLast <+: t.fields
  prefix_path : t.fields <+: path
  operator_last : ∀ op ∈ t.operator, t.fields ++ [op.name] = path

theorem splitOperator_concat (init : List String) (last : String) :
    splitOperator (init ++ [last]) = match Operator.ofName? last with
      | none => (init ++ [last], none)
      | some op => if init = [] then ([], none) else (init, some op) := by
  cases hlast : Operator.ofName? last with
  | none => simp [splitOperator, hlast]
  | some op => simp [splitOperator, hlast]

/-- **Only the last segment of a path is read as an operator.** -/
theorem Triple.endsOnly_ofPath (path : List String) (v : Json) :
    (Triple.ofPath path v).EndsOnly path := by
  rcases List.eq_nil_or_concat path with rfl | ⟨init, last, rfl⟩
  · exact ⟨List.prefix_rfl, List.prefix_rfl, by simp [ofPath, splitOperator]⟩
  rw [List.concat_eq_append, ofPath, splitOperator_concat]
  cases hlast : Operator.ofName? last with
  | none => exact ⟨List.dropLast_prefix _, List.prefix_rfl, by simp⟩
  | some op =>
    by_cases hinit : init = []
    · subst hinit
      exact ⟨List.nil_prefix, List.nil_prefix, by simp⟩
    · simp only [if_neg hinit]
      refine ⟨by rw [List.dropLast_concat], List.prefix_append _ _, ?_⟩
      intro op' hop
      obtain rfl : op = op' := Option.some.inj hop
      rw [Operator.name_of_ofName? hlast]

/-! ### Nested parameters -/

/-- The triple of a leaf is the only one of its flat key. -/
theorem triples_flatKey {key : String} {leaf : List String × Json}
    (hvalue : leaf.2.isObject = false) (h : ∀ k ∈ key :: leaf.1, Joinable k) :
    triples (flatKey (key :: leaf.1)) leaf.2 = [leafTriple (keyPath key) leaf] := by
  rw [triples, triplesAt_of_not_object hvalue, keyPath_flatKey h, List.flatMap_cons]
  rfl

theorem endsOnly_leafTriple {key : String} {leaf : List String × Json}
    (h : ∀ k ∈ key :: leaf.1, Joinable k) :
    (leafTriple (keyPath key) leaf).EndsOnly (segments (flatKey (key :: leaf.1))) := by
  have hne : flatKey (key :: leaf.1) ≠ "" := flatKey_ne_empty (h key (by simp)).ne_empty leaf.1
  rw [← keyPath_of_ne_empty hne, keyPath_flatKey h, List.flatMap_cons]
  exact Triple.endsOnly_ofPath _ leaf.2

/-- **A nested parameter is read as its flat keys are.** If a separator can follow every key on the
way to a leaf, the triples of the parameter are those of its leaves, each under the flat key of the
keys that lead to it. There is one triple for each leaf, with the value of the leaf, and of the
segments of the flat key only the last can be its operator. -/
theorem triples_eq_flatMap_triples_flatKey (key : String) (value : Json)
    (h : ∀ leaf ∈ value.leaves, ∀ k ∈ key :: leaf.1, Joinable k) :
    (triples key value =
      value.leaves.flatMap fun leaf => triples (flatKey (key :: leaf.1)) leaf.2) ∧
    List.Forall₂
      (fun leaf t => t.value = leaf.2 ∧ t.EndsOnly (segments (flatKey (key :: leaf.1))))
      value.leaves (triples key value) := by
  rw [triples_eq_map_leaves]
  constructor
  · have hflat : ∀ leaf ∈ value.leaves,
        triples (flatKey (key :: leaf.1)) leaf.2 = [leafTriple (keyPath key) leaf] :=
      fun leaf hleaf => triples_flatKey (value.isObject_of_mem_leaves leaf hleaf) (h leaf hleaf)
    rw [List.flatMap_congr hflat, List.map_eq_flatMap]
  · rw [List.forall₂_map_right_iff, List.forall₂_same]
    intro leaf hleaf
    exact ⟨rfl, endsOnly_leafTriple (h leaf hleaf)⟩

/-- A test of related records in the middle of a path, an underscore in front of a field, and an
operator at the end of the last key. -/
def nestedPosts : Json :=
  .object [("some", .object [("_title", .string "x"), ("tags__in", .array [.object []])])]

theorem triples_nestedPosts :
    triples "posts" nestedPosts = triples "posts__some___title" (.string "x") ++
      triples "posts__some__tags__in" (.array [.object []]) := by
  have hleaves : nestedPosts.leaves = [(["some", "_title"], .string "x"),
      (["some", "tags__in"], .array [.object []])] := rfl
  have hjoinable : ∀ leaf ∈ nestedPosts.leaves, ∀ k ∈ "posts" :: leaf.1, Joinable k := by
    rw [hleaves, List.forall_mem_cons, List.forall_mem_singleton]
    decide
  exact (triples_eq_flatMap_triples_flatKey "posts" nestedPosts hjoinable).1

end Sieve.Filter
