import Mathlib
import Sieve.Proofs.Filter.Sound
import Sieve.Proofs.Json.Distinct

/-!
# The shape of compiled filters

A compiled filter is a branch. Alternatives stand under its reserved key and nowhere else, and each
of them is a chain. No conditions are empty, no two conditions of one field occupy the same key, and
no object stands where an operand does.

All of this is said of what a path of keys leads to, and it follows from `Tree.Rooted`, which every
merge keeps. The operands are those that repeat no key, so that neither does the document.

## Main definitions

* `Compiler.Makes` — the trees that a compiler makes
* `Tree.Shaped` — the shape of such a tree, at every path

## Main results

* `Tree.Rooted.getPath?_cons` — what a path leads to
* `Tree.Rooted.distinct` — the document of a tree repeats no key
* `Compiler.shaped_of_makes` — every tree that a compiler makes has the shape
-/

namespace Sieve.Filter

/-! ### Operands that repeat no key -/

namespace Operand

/-- The document of the operand repeats no key. -/
def Distinct (v : Operand) : Prop := v.toJson.distinct = true

theorem distinct_of_isScalar {v : Operand} (h : v.isScalar = true) : v.Distinct := by
  cases v with
  | list vs => cases h
  | object es => cases h
  | float x => rw [Distinct, toJson]; split <;> rfl
  | _ => rfl

theorem distinct_list {vs : List Operand} : (list vs).Distinct ↔ ∀ v ∈ vs, v.Distinct := by
  rw [Distinct, toJson, Json.distinct_array, toJsonList_eq_map, List.forall_mem_map]
  rfl

theorem joinClosed_distinct : JoinClosed Distinct := by
  intro vs ws hvs hws
  rw [distinct_list] at *
  exact List.forall_mem_append.2 ⟨hvs, hws⟩

mutual

theorem distinct_ofJson (v : Json) (h : v.distinct = true) : (ofJson v).Distinct := by
  cases v with
  | array items =>
    rw [ofJson, distinct_list]
    exact distinct_ofJsonList items (Json.distinct_array.1 h)
  | object es => rwa [ofJson, Distinct, toJson]
  | int i => rw [ofJson]; split <;> exact distinct_of_isScalar rfl
  | _ => exact distinct_of_isScalar rfl

theorem distinct_ofJsonList (vs : List Json) (h : ∀ v ∈ vs, v.distinct = true) :
    ∀ u ∈ ofJsonList vs, u.Distinct := by
  cases vs with
  | nil => simp [ofJsonList]
  | cons v vs =>
    obtain ⟨hv, hvs⟩ := List.forall_mem_cons.1 h
    rw [ofJsonList]
    exact List.forall_mem_cons.2 ⟨distinct_ofJson v hv, distinct_ofJsonList vs hvs⟩

end

end Operand

theorem Classification.distinct_coerceText (c : Classification) (field s : String) :
    (c.coerceText field s).Distinct :=
  Operand.distinct_of_isScalar (c.isScalar_coerceText field s)

theorem Classification.distinct_coerce (c : Classification) (field : String) {v : Json}
    (h : v.distinct = true) : (c.coerce field v).Distinct := by
  cases v with
  | string s => exact c.distinct_coerceText field s
  | _ => exact Operand.distinct_ofJson _ h

theorem Builder.feeds_distinct {b : Builder} {v : Json} (hv : v.distinct = true) :
    b.Feeds Operand.Distinct v where
  plain := Operand.distinct_ofJson v hv
  coerced root := b.classification.distinct_coerce root hv
  members root := by
    cases v with
    | string s =>
      exact List.forall_mem_map.2 fun part _ => b.classification.distinct_coerceText root _
    | array items =>
      refine List.forall_mem_map.2 fun item hitem => ?_
      split
      · exact b.classification.distinct_coerceText root _
      · exact Operand.distinct_ofJson item (Json.distinct_array.1 hv item hitem)
    | _ => exact List.forall_mem_singleton.2 (b.classification.distinct_coerce root hv)
  alternatives root := by
    cases v with
    | string s =>
      exact List.forall_mem_map.2 fun part _ => b.classification.distinct_coerceText root _
    | array items =>
      exact List.forall_mem_map.2 fun item hitem =>
        b.classification.distinct_coerce root (Json.distinct_array.1 hv item hitem)
    | _ => exact List.forall_mem_singleton.2 (b.classification.distinct_coerce root hv)
  null := rfl
  blank := rfl

/-! ### The trees of a compiler -/

mutual

theorem distinct_of_mem_leaves (v : Json) (h : v.distinct = true) :
    ∀ leaf ∈ v.leaves, leaf.2.distinct = true := by
  cases v with
  | object es =>
    rw [Json.leaves]
    exact distinct_of_mem_leavesOfEntries es (Json.distinct_object.1 h).2
  | _ => simpa [Json.leaves] using h

theorem distinct_of_mem_leavesOfEntries (es : List (String × Json))
    (h : ∀ e ∈ es, e.2.distinct = true) :
    ∀ leaf ∈ Json.leavesOfEntries es, leaf.2.distinct = true := by
  cases es with
  | nil => simp [Json.leavesOfEntries]
  | cons e es =>
    obtain ⟨k, v⟩ := e
    obtain ⟨hv, hes⟩ := List.forall_mem_cons.1 h
    rw [Json.leavesOfEntries, List.forall_mem_append, List.forall_mem_map]
    exact ⟨distinct_of_mem_leaves v hv, distinct_of_mem_leavesOfEntries es hes⟩

end

namespace Compiler

variable {c : Compiler}

/-- The trees that a compiler makes: the empty one, those of parameters without repeated keys, and
what comes of merging them. -/
inductive Makes (c : Compiler) : Tree → Prop where
  | empty : Makes c .empty
  | compile {params : Params} (h : (Json.object params).distinct = true) :
    Makes c (c.compile params)
  | merge {t s : Tree} (ht : Makes c t) (hs : Makes c s) : Makes c (t.merge s)

theorem Makes.rooted {t : Tree} (h : c.Makes t) : Tree.Rooted c.toBuilder Operand.Distinct t := by
  induction h with
  | empty => exact Tree.rooted_empty
  | compile h =>
    refine rooted_compile Operand.joinClosed_distinct fun p hp leaf hleaf => ?_
    exact Builder.feeds_distinct
      (distinct_of_mem_leaves p.2 ((Json.distinct_object.1 h).2 p hp) leaf hleaf)
  | merge _ _ iht ihs => exact iht.merge Operand.joinClosed_distinct ihs

end Compiler

/-! ### At every path -/

namespace Tree

variable {b : Builder} {P : Operand → Prop} {t s : Tree} {key : String} {path : List String}

theorem Sound.getPath? (h : Sound b P t) (hs : t.getPath? path = some s) : Sound b P s := by
  induction path generalizing t with
  | nil =>
    obtain rfl := Option.some.inj hs
    exact h
  | cons key path ih =>
    obtain ⟨child, hchild, hrest⟩ := Option.bind_eq_some_iff.1 hs
    cases h with
    | equals _ _ => cases hchild
    | conditions _ _ _ => cases hchild
    | nested _ hbs => exact ih (hbs _ (Entries.mem_of_get? hchild)) hrest

/-- Below the root, only the reserved key can lead to alternatives, and nothing comes after it. -/
theorem Rooted.getPath?_cons (h : Rooted b P t) (hs : t.getPath? (key :: path) = some s) :
    Sound b P s ∨ key = orKey ∧ path = [] ∧ ∃ ts, s = .or ts ∧ ∀ a ∈ ts, Chain P a := by
  obtain ⟨child, hchild, hrest⟩ := Option.bind_eq_some_iff.1 hs
  cases h with
  | nested _ hbs =>
    rcases hbs _ (Entries.mem_of_get? hchild) with hsound | ⟨hkey, ts, hts, hchains⟩
    · exact .inl (hsound.getPath? hrest)
    · obtain rfl : child = .or ts := hts
      cases path with
      | nil =>
        obtain rfl := Option.some.inj hrest
        exact .inr ⟨hkey, rfl, ts, rfl, hchains⟩
      | cons key' path => cases hrest

end Tree

/-! ### The document -/

theorem Condition.distinct_of_mem_entries {b : Builder} {c : Condition}
    (hc : b.Admits Operand.Distinct c) {e : String × Json} (he : e ∈ c.entries) :
    e.2.distinct = true := by
  cases c with
  | compare op v =>
    obtain rfl := List.mem_singleton.1 he
    exact hc.2
  | contains text mode =>
    cases mode with
    | none =>
      obtain rfl := List.mem_singleton.1 he
      rfl
    | some m =>
      obtain rfl | he := List.mem_cons.1 he
      · rfl
      · obtain rfl := List.mem_singleton.1 he
        rfl
  | member op vs =>
    obtain rfl := List.mem_singleton.1 he
    exact Operand.distinct_list.2 hc
  | unset => cases he

namespace Tree

variable {b : Builder} {P : Operand → Prop} {t : Tree}

/-- The document of a branch repeats no key if its keys are distinct and the documents of its
children repeat none. -/
theorem distinct_toJson_nested {bs : List (String × Tree)} (hkeys : (Entries.keys bs).Nodup)
    (hbs : ∀ p ∈ bs, p.2.toJson.distinct = true) : (nested bs).toJson.distinct = true := by
  rw [toJson_nested, Json.distinct_object, Entries.keys, List.map_map, List.forall_mem_map]
  exact ⟨hkeys, hbs⟩

theorem Chain.distinct (h : Chain Operand.Distinct t) : t.toJson.distinct = true := by
  induction h with
  | equals hv => rwa [toJson_equals]
  | empty => exact distinct_toJson_nested .nil (by simp)
  | nested key _ ih => exact distinct_toJson_nested (by simp) (List.forall_mem_singleton.2 ih)

theorem Sound.distinct (h : Sound b Operand.Distinct t) : t.toJson.distinct = true := by
  induction h with
  | equals _ hv => rwa [toJson_equals]
  | conditions _ hkeys hcs =>
    rw [toJson_conditions, Json.distinct_object]
    refine ⟨Condition.nodup_keys_flatMap_entries hkeys, fun e he => ?_⟩
    obtain ⟨c, hc, he⟩ := List.mem_flatMap.1 he
    exact Condition.distinct_of_mem_entries (hcs c hc) he
  | nested hkeys _ ih => exact distinct_toJson_nested hkeys ih

theorem Rooted.distinct (h : Rooted b Operand.Distinct t) : t.toJson.distinct = true := by
  cases h with
  | nested hkeys hbs =>
    refine distinct_toJson_nested hkeys fun p hp => ?_
    rcases hbs p hp with hsound | ⟨-, ts, hts, hchains⟩
    · exact hsound.distinct
    · rw [hts, toJson_or, Json.distinct_array, List.forall_mem_map]
      exact fun a ha => (hchains a ha).distinct

/-! ### The shape of a tree -/

/-- What a compiled filter looks like. -/
structure Shaped (t : Tree) : Prop where
  /-- The whole tree is a branch. -/
  root : t.isNested = true
  /-- No branch has two children under one key, so that paths lead to every part of the tree. -/
  branch : ∀ path bs, t.getPath? path = some (.nested bs) → (Entries.keys bs).Nodup
  /-- Conditions are never empty, and no two of one field occupy the same key. -/
  conditions : ∀ path cs, t.getPath? path = some (.conditions cs) →
    cs ≠ [] ∧ (cs.map Condition.key).Nodup
  /-- Alternatives stand under the reserved key of the root only, and they are chains. -/
  alternatives : ∀ path ts, t.getPath? path = some (.or ts) →
    path = [orKey] ∧ ∀ a ∈ ts, Chain Operand.Distinct a
  /-- Outside the alternatives, no bare operand is an object. -/
  operand : ∀ path v, t.getPath? path = some (.equals v) → v.isObject = false
  /-- No comparison is with an object. -/
  comparison : ∀ path cs op v, t.getPath? path = some (.conditions cs) →
    .compare op v ∈ cs → v.isObject = false
  /-- No object in the document has a key twice. -/
  document : t.toJson.distinct = true

/-- What is not a list of alternatives is sound wherever a path leads to it. -/
theorem Rooted.sound_getPath? (h : Rooted b P t) {key : String} {path : List String} {s : Tree}
    (hs : t.getPath? (key :: path) = some s) (hor : ∀ ts, s ≠ .or ts) : Sound b P s := by
  rcases h.getPath?_cons hs with hsound | ⟨-, -, ts, hts, -⟩
  · exact hsound
  · exact absurd hts (hor ts)

theorem Rooted.shaped (h : Rooted b Operand.Distinct t) : t.Shaped := by
  obtain ⟨bs, rfl⟩ : ∃ bs, t = .nested bs := by
    cases h with
    | nested _ _ => exact ⟨_, rfl⟩
  refine ⟨rfl, ?_, ?_, ?_, ?_, ?_, h.distinct⟩
  · rintro (_ | ⟨key, path⟩) cs hs
    · cases hs
      cases h with
      | nested hkeys _ => exact hkeys
    · cases h.sound_getPath? hs (by simp) with
      | nested hkeys _ => exact hkeys
  · rintro (_ | ⟨key, path⟩) cs hs
    · cases hs
    · cases h.sound_getPath? hs (by simp) with
      | conditions hne hkeys _ => exact ⟨hne, hkeys⟩
  · rintro (_ | ⟨key, path⟩) ts hs
    · cases hs
    · rcases h.getPath?_cons hs with hsound | ⟨rfl, rfl, ts', hts, hchains⟩
      · cases hsound
      · cases hts
        exact ⟨rfl, hchains⟩
  · rintro (_ | ⟨key, path⟩) v hs
    · cases hs
    · cases h.sound_getPath? hs (by simp) with
      | equals hobject _ => exact hobject
  · rintro (_ | ⟨key, path⟩) cs op v hs hmem
    · cases hs
    · cases h.sound_getPath? hs (by simp) with
      | conditions _ _ hcs => exact (hcs _ hmem).1

end Tree

/-- **The shape of every tree that a compiler makes**, out of any parameters and by any merges. -/
theorem Compiler.shaped_of_makes {c : Compiler} {t : Tree} (h : c.Makes t) : t.Shaped :=
  h.rooted.shaped

/-- Alternatives and conditions of two layers, merged over one another. -/
theorem Compiler.shaped_two_layers :
    ∃ t, (default : Compiler).Makes t ∧ t.Shaped ∧ t.toJson = .object
      [("n", .object [("gt", .string "5"), ("in", .array [.string "7", .string "8"]),
          ("lt", .string "9")]),
        ("OR", .array [.object [("a", .string "1")], .object [("a", .string "2")],
          .object [("b", .object [("c", .string "3")])]])] := by
  let earlier : Params :=
    [("n", .object [("gt", .string "4"), ("in", .string "7")]), ("a__or", .string "1,2")]
  let later : Params :=
    [("n__gt", .string "5"), ("n__in", .string "8"), ("n__lt", .string "9"),
      ("b__c__or", .string "3")]
  have hearlier : (default : Compiler).Makes (Compiler.compile default earlier) :=
    .compile (by decide)
  have hlater : (default : Compiler).Makes (Compiler.compile default later) :=
    .compile (by decide)
  exact ⟨_, .merge hearlier hlater, shaped_of_makes (.merge hearlier hlater), by cbv⟩

end Sieve.Filter
