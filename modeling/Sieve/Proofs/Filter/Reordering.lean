import Mathlib
import Sieve.Proofs.Filter.Merging
import Sieve.Proofs.Filter.Predicates
import Sieve.Proofs.Json.KeyOrder

/-!
# Filters in another order

Filters that have nothing to do with each other may come in any order. Two filters are *separate* if
their fields part ways, or if they put conditions with different keys on one field. Laying one over
the other in either order gives trees that differ in the order of branches and conditions only, and
such trees stay alike whatever is laid over both of them.

Fields that part ways may still pass through the same branches, and an unsafe key among them cuts a
chain short. Neither makes a difference, because a chain that is cut short leaves the branches above
the unsafe key behind, whether or not they were there before.

## Main definitions

* `Tree.Alike` — trees that differ in the order of branches and conditions
* `Triple.Separate` — triples whose order does not matter

## Main results

* `Tree.Alike.merge_wrap` — alike trees stay alike
* `Tree.Alike.merge_wrap_comm` — separate chains may be laid in either order
* `Tree.Alike.sortKeys_toJson` — alike trees are the same document but for the order of keys
* `Compiler.sortKeys_toJson_compile_of_perm` — the order of separate parameters does not matter
-/

namespace Sieve.Filter

namespace Tree

/-! ### Alike trees -/

/-- The trees differ in the order of branches and conditions only. -/
inductive Alike : Tree → Tree → Prop where
  | equals (v : Operand) : Alike (.equals v) (.equals v)
  | conditions {cs ds : List Condition} (hcs : (cs.map Condition.key).Nodup)
      (hds : (ds.map Condition.key).Nodup)
      (h : ∀ key, Condition.find? cs key = Condition.find? ds key) :
    Alike (.conditions cs) (.conditions ds)
  | or (alternatives : List Tree) : Alike (.or alternatives) (.or alternatives)
  | nested {bs cs : List (String × Tree)} (hbs : (Entries.keys bs).Nodup)
      (hcs : (Entries.keys cs).Nodup)
      (hkeys : ∀ key, Entries.get? bs key = none ↔ Entries.get? cs key = none)
      (h : ∀ key t u, Entries.get? bs key = some t → Entries.get? cs key = some u → Alike t u) :
    Alike (.nested bs) (.nested cs)

namespace Alike

variable {t u w : Tree} {bs cs : List (String × Tree)}

theorem exists_get? (h : ∀ key, Entries.get? bs key = none ↔ Entries.get? cs key = none)
    {key : String} (ht : Entries.get? bs key = some t) : ∃ u, Entries.get? cs key = some u := by
  rw [← Option.ne_none_iff_exists', ne_eq, ← h key, ht]
  exact Option.some_ne_none t

theorem symm (h : Alike t u) : Alike u t := by
  induction h with
  | equals v => exact .equals v
  | conditions hcs hds h => exact .conditions hds hcs fun key => (h key).symm
  | or ts => exact .or ts
  | nested hbs hcs hkeys _ ih =>
    exact .nested hcs hbs (fun key => (hkeys key).symm) fun key t u ht hu => ih key u t hu ht

theorem trans (h : Alike t u) (h' : Alike u w) : Alike t w := by
  induction h generalizing w with
  | equals v => exact h'
  | conditions hcs _ h =>
    cases h' with
    | conditions _ hes h' => exact .conditions hcs hes fun key => (h key).trans (h' key)
  | or ts => exact h'
  | @nested bs cs hbs _ hkeys _ ih =>
    cases h' with
    | nested _ hds hkeys' h' =>
      refine .nested hbs hds (fun key => (hkeys key).trans (hkeys' key)) ?_
      intro key t v ht hv
      obtain ⟨u, hu⟩ := exists_get? hkeys ht
      exact ih key t u ht hu (h' key u v hu hv)

theorem empty : Alike Tree.empty Tree.empty :=
  .nested List.nodup_nil List.nodup_nil (fun _ => Iff.rfl) fun _ _ _ ht => by simp at ht

theorem eq_none_iff_of_rel {x y : Option Tree} (h : Option.Rel Alike x y) :
    x = none ↔ y = none := by
  cases h <;> simp

/-- Branches with alike children under every key are alike. -/
theorem nested_of_rel (hbs : (Entries.keys bs).Nodup)
    (hcs : (Entries.keys cs).Nodup)
    (h : ∀ key, Option.Rel Alike (Entries.get? bs key) (Entries.get? cs key)) :
    Alike (.nested bs) (.nested cs) := by
  refine .nested hbs hcs ?_ ?_
  · exact fun key => eq_none_iff_of_rel (h key)
  · intro key t u ht hu
    have hrel := h key
    rwa [ht, hu, Option.rel_some_some] at hrel

/-- The children of alike trees are alike. -/
theorem rel_get? (h : Alike t u) (key : String) :
    Option.Rel Alike (t.get? key) (u.get? key) := by
  cases h with
  | equals v => exact .none
  | conditions _ _ _ => exact .none
  | or ts => exact .none
  | @nested bs cs _ _ hkeys h =>
    show Option.Rel Alike (Entries.get? bs key) (Entries.get? cs key)
    cases hb : Entries.get? bs key with
    | none =>
      rw [(hkeys key).1 hb]
      exact .none
    | some t =>
      obtain ⟨u, hu⟩ := exists_get? hkeys hb
      rw [hu]
      exact .some (h key t u hb hu)

theorem getD_get? (h : Alike t u) (key : String) :
    Alike ((t.get? key).getD Tree.empty) ((u.get? key).getD Tree.empty) := by
  have hrel := h.rel_get? key
  generalize t.get? key = x at hrel ⊢
  generalize u.get? key = y at hrel ⊢
  cases hrel with
  | none => exact .empty
  | some h => exact h

theorem nodup_keys (h : Alike t u) : t.keys.Nodup := by
  cases h with
  | nested hbs _ _ _ => exact hbs
  | _ => exact List.nodup_nil

theorem nodup_conditionList (h : Alike t u) : (t.conditionList.map Condition.key).Nodup := by
  cases h with
  | conditions hcs _ _ => exact hcs
  | _ => exact List.nodup_nil

theorem find?_conditionList (h : Alike t u) (key : String) :
    Condition.find? t.conditionList key = Condition.find? u.conditionList key := by
  cases h with
  | conditions _ _ h => exact h key
  | _ => rfl

theorem operand?_eq (h : Alike t u) : t.operand? = u.operand? := by
  cases h <;> rfl

/-! ### A chain over alike trees -/

variable {p q : List String} {l m : Predicate}

/-- Chains make the same of two trees if they leave alike children under every key. -/
theorem of_get?_merge {t' u' : Tree} (ht : t'.keys.Nodup) (hu : u'.keys.Nodup) (f g : String)
    (fs gs : List String) (l m : Predicate)
    (h : ∀ key, Option.Rel Alike ((t'.merge (wrap (f :: fs) l.leaf)).get? key)
      ((u'.merge (wrap (g :: gs) m.leaf)).get? key)) :
    Alike (t'.merge (wrap (f :: fs) l.leaf)) (u'.merge (wrap (g :: gs) m.leaf)) := by
  have hkeys := nodup_keys_merge_wrap_cons l.isNested_leaf ht f fs
  have hkeys' := nodup_keys_merge_wrap_cons m.isNested_leaf hu g gs
  rw [merge_wrap_cons l.isNested_leaf] at h hkeys ⊢
  rw [merge_wrap_cons m.isNested_leaf] at h hkeys' ⊢
  exact nested_of_rel hkeys hkeys' h

theorem merge_leaf (h : Alike t u) (l : Predicate) : Alike (t.merge l.leaf) (u.merge l.leaf) := by
  cases l with
  | equals v =>
    rw [Predicate.leaf, merge_equals, merge_equals, h.operand?_eq]
    exact .equals _
  | condition c =>
    rw [Predicate.leaf, merge_condition, merge_condition]
    refine .conditions (Condition.nodup_keys_add h.nodup_conditionList)
      (Condition.nodup_keys_add h.symm.nodup_conditionList) fun key => ?_
    rw [Condition.find?_add, Condition.find?_add, h.find?_conditionList]

/-- **Alike trees stay alike** when a chain is laid over both. -/
theorem merge_wrap (h : Alike t u) (p : List String) (l : Predicate) :
    Alike (t.merge (wrap p l.leaf)) (u.merge (wrap p l.leaf)) := by
  induction p generalizing t u with
  | nil => exact h.merge_leaf l
  | cons f fs ih =>
    refine of_get?_merge h.nodup_keys h.symm.nodup_keys f f fs fs l l fun key => ?_
    rw [get?_merge_wrap_cons l.isNested_leaf, get?_merge_wrap_cons l.isNested_leaf]
    split
    · exact .none
    · split
      · exact .some (ih (h.getD_get? f))
      · exact h.rel_get? key

/-- Two chains may be laid in either order if what is left of them may, wherever they begin with the
same field. -/
theorem merge_wrap_cons_comm (h : Alike t t) {f g : String} {fs gs : List String}
    (hsub : f = g → ∀ {s : Tree}, Alike s s →
      Alike ((s.merge (wrap fs l.leaf)).merge (wrap gs m.leaf))
        ((s.merge (wrap gs m.leaf)).merge (wrap fs l.leaf))) :
    Alike ((t.merge (wrap (f :: fs) l.leaf)).merge (wrap (g :: gs) m.leaf))
      ((t.merge (wrap (g :: gs) m.leaf)).merge (wrap (f :: fs) l.leaf)) := by
  refine of_get?_merge (nodup_keys_merge_wrap_cons l.isNested_leaf h.nodup_keys f fs)
    (nodup_keys_merge_wrap_cons m.isNested_leaf h.nodup_keys g gs) g f gs fs m l fun key => ?_
  simp only [get?_merge_wrap_cons l.isNested_leaf, get?_merge_wrap_cons m.isNested_leaf]
  -- an unsafe key holds nothing on either side; a safe one that both chains begin with is where the
  -- rest of them meets, and any other key sees at most one of the chains
  cases hkey : isUnsafeKey key with
  | true => exact .none
  | false =>
    by_cases hfg : f = g
    · subst hfg
      by_cases hf : key = f
      · subst hf
        simpa [hkey] using hsub rfl (h.getD_get? key)
      · simpa [hf] using h.rel_get? key
    · by_cases hf : key = f
      · subst hf
        simpa [hkey, hfg] using (h.getD_get? key).merge_wrap fs l
      · by_cases hg : key = g
        · subst hg
          simpa [hkey, hf] using (h.getD_get? key).merge_wrap gs m
        · simpa [hf, hg] using h.rel_get? key

/-- **Chains that part ways** may be laid in either order. -/
theorem merge_wrap_comm_of_apart (h : Alike t t) (hpq : Apart p q) (l m : Predicate) :
    Alike ((t.merge (wrap p l.leaf)).merge (wrap q m.leaf))
      ((t.merge (wrap q m.leaf)).merge (wrap p l.leaf)) := by
  induction p generalizing q t with
  | nil => exact absurd hpq.symm not_apart_nil
  | cons f fs ih =>
    obtain ⟨g, gs, rfl⟩ := hpq.symm.exists_eq_cons
    refine h.merge_wrap_cons_comm fun hfg s hs => ?_
    subst hfg
    exact ih hs (apart_cons_self.1 hpq)

/-- **Conditions with different keys** may be put on a field in either order. -/
theorem merge_wrap_comm_of_key_ne (h : Alike t t) {c d : Condition} (hcd : c.key ≠ d.key)
    (p : List String) :
    Alike ((t.merge (wrap p (Predicate.condition c).leaf)).merge
        (wrap p (Predicate.condition d).leaf))
      ((t.merge (wrap p (Predicate.condition d).leaf)).merge
        (wrap p (Predicate.condition c).leaf)) := by
  induction p generalizing t with
  | cons f fs ih => exact h.merge_wrap_cons_comm fun _ _ hs => ih hs
  | nil =>
    have hnodup := h.nodup_conditionList
    simp only [wrap_nil, Predicate.leaf, merge_condition, conditionList]
    refine .conditions (Condition.nodup_keys_add (Condition.nodup_keys_add hnodup))
      (Condition.nodup_keys_add (Condition.nodup_keys_add hnodup)) fun key => ?_
    simp only [Condition.find?_add]
    by_cases hc : key = c.key
    · subst hc
      simp [hcd]
    · simp [hc]

/-! ### Alike trees as documents -/

/-- **Alike trees are the same document** but for the order of keys. -/
theorem sortKeys_toJson (h : Alike t u) : t.toJson.sortKeys = u.toJson.sortKeys := by
  induction h with
  | equals v => rfl
  | or ts => rfl
  | conditions hcs hds h =>
    have hperm := (Condition.perm_of_find? hcs hds h).flatMap_right Condition.entries
    rw [toJson_conditions, toJson_conditions]
    exact Json.sortKeys_object_eq_of_perm (Condition.nodup_keys_flatMap_entries hcs) (hperm.map _)
  | @nested bs cs hbs hcs hkeys _ ih =>
    rw [toJson_nested, toJson_nested]
    refine Json.sortKeys_object_eq_of_get? (by rwa [Entries.keys_map_snd])
      (by rwa [Entries.keys_map_snd]) fun key => ?_
    rw [Entries.get?_map_snd, Entries.get?_map_snd]
    cases hb : Entries.get? bs key with
    | none => rw [(hkeys key).1 hb]
    | some t =>
      obtain ⟨u, hu⟩ := exists_get? hkeys hb
      rw [hu, Option.map_some, Option.map_some, Option.map_some, Option.map_some,
        ih key t u hb hu]

end Alike

end Tree

/-! ### Separate triples -/

/-- The key that the condition of an operator occupies; a disjunction has no condition. -/
def Operator.conditionKey? : Operator → Option String
  | compare op => some op.name
  | member op => some op.name
  | contains _ => some "contains"
  | isNull | isEmpty => some Comparison.equals.name
  | or => none

namespace Triple

/-- The key that the condition of a triple occupies, if it has one. -/
def conditionKey? (t : Triple) : Option String := t.operator.bind Operator.conditionKey?

/-- The fields of the triples part ways, or the triples put conditions with different keys on one
field. -/
def Separate (t u : Triple) : Prop :=
  Apart t.fields u.fields ∨
    t.fields = u.fields ∧ ∃ k ∈ t.conditionKey?, ∃ l ∈ u.conditionKey?, k ≠ l

theorem Separate.symm {t u : Triple} (h : Separate t u) : Separate u t := by
  rcases h with h | ⟨hfields, k, hk, l, hl, hne⟩
  · exact Or.inl h.symm
  · exact Or.inr ⟨hfields.symm, l, hl, k, hk, hne.symm⟩

end Triple

namespace Builder

variable {b : Builder} {t u : Triple} {s s' : Tree}

theorem conditionKey?_of_condition? {root : String} {v : Json} {op : Operator} {c : Condition}
    (h : b.condition? root v op = some c) : op.conditionKey? = some c.key := by
  cases op with
  | compare op => cases h; rfl
  | member op => cases h; rfl
  | contains mode => cases h; rfl
  | isNull =>
    cases h
    rw [Operator.conditionKey?]
    split <;> rfl
  | isEmpty =>
    cases h
    rw [Operator.conditionKey?]
    split <;> rfl
  | or => cases h

/-- A triple puts a condition on its field if it has a key for one. -/
theorem exists_condition_of_mem_conditionKey? {p : Predicate} {k : String}
    (hp : b.predicate? t = some p) (hk : k ∈ t.conditionKey?) :
    ∃ c, p = .condition c ∧ c.key = k := by
  obtain ⟨root, fs, -, ⟨ho, rfl⟩ | ⟨op, c, ho, hc, rfl⟩⟩ := predicate?_cases hp
  · simp [Triple.conditionKey?, ho] at hk
  · refine ⟨c, rfl, ?_⟩
    rw [Triple.conditionKey?, ho, Option.bind_some, conditionKey?_of_condition? hc] at hk
    exact Option.some.inj hk

theorem alike_overlay {p : Predicate} (hp : b.predicate? t = some p) (hs : Tree.Alike s s') :
    Tree.Alike (b.overlay s t) (b.overlay s' t) := by
  rw [overlay_of_predicate? s hp, overlay_of_predicate? s' hp]
  exact hs.merge_wrap _ _

/-- **Separate triples** may be laid in either order. -/
theorem alike_overlay_comm {p q : Predicate} (hp : b.predicate? t = some p)
    (hq : b.predicate? u = some q) (hsep : t.Separate u) (hs : Tree.Alike s s) :
    Tree.Alike (b.overlay (b.overlay s t) u) (b.overlay (b.overlay s u) t) := by
  simp only [overlay_of_predicate? _ hp, overlay_of_predicate? _ hq]
  rcases hsep with hapart | ⟨hfields, k, hk, l, hl, hne⟩
  · exact hs.merge_wrap_comm_of_apart hapart p q
  · obtain ⟨c, rfl, rfl⟩ := exists_condition_of_mem_conditionKey? hp hk
    obtain ⟨d, rfl, rfl⟩ := exists_condition_of_mem_conditionKey? hq hl
    rw [hfields]
    exact hs.merge_wrap_comm_of_key_ne hne _

theorem alike_foldl_overlay {ts : List Triple} (hts : ∀ t ∈ ts, ∃ p, b.predicate? t = some p)
    (hs : Tree.Alike s s') : Tree.Alike (ts.foldl b.overlay s) (ts.foldl b.overlay s') := by
  induction ts generalizing s s' with
  | nil => exact hs
  | cons t ts ih =>
    obtain ⟨⟨p, hp⟩, hts⟩ := List.forall_mem_cons.1 hts
    exact ih hts (alike_overlay hp hs)

/-- **Triples that are separate in pairs** may be laid in any order. -/
theorem alike_foldl_overlay_of_perm {ts us : List Triple} (h : ts.Perm us)
    (hts : ∀ t ∈ ts, ∃ p, b.predicate? t = some p) (hsep : ts.Pairwise Triple.Separate)
    (hs : Tree.Alike s s) : Tree.Alike (ts.foldl b.overlay s) (us.foldl b.overlay s) := by
  induction h generalizing s with
  | nil => exact hs
  | cons t _ ih =>
    obtain ⟨⟨p, hp⟩, hts⟩ := List.forall_mem_cons.1 hts
    exact ih hts hsep.of_cons (alike_overlay hp hs)
  | swap t u ts =>
    obtain ⟨⟨q, hq⟩, hts⟩ := List.forall_mem_cons.1 hts
    obtain ⟨⟨p, hp⟩, hts⟩ := List.forall_mem_cons.1 hts
    have hut : u.Separate t := List.rel_of_pairwise_cons hsep List.mem_cons_self
    exact alike_foldl_overlay hts (alike_overlay_comm hq hp hut hs)
  | trans hperm _ ih ih' =>
    -- the triples in between are the same ones, so they too have predicates and are separate
    have hts' := fun t ht => hts t (hperm.mem_iff.2 ht)
    have hsep' := (hperm.pairwise_iff Triple.Separate.symm).1 hsep
    exact (ih hts hsep hs).trans (ih' hts' hsep' hs)

end Builder

/-! ### Compiling parameters in another order -/

namespace Compiler

theorem flattened_perm (c : Compiler) {params params' : Params} (h : params.Perm params') :
    (c.flattened params).Perm (c.flattened params') :=
  ((h.filter _).flatMap_right _).map _

/-- **The order of separate parameters does not matter.** If every filter has a path, none is a
disjunction, and the filters are separate in pairs, then parameters in another order compile to the
same document but for the order of keys. -/
theorem sortKeys_toJson_compile_of_perm (c : Compiler) {params params' : Params}
    (hperm : params.Perm params') (hpath : ∀ t ∈ c.flattened params, t.fields ≠ [])
    (hor : ∀ t ∈ c.flattened params, t.operator ≠ some .or)
    (hsep : (c.flattened params).Pairwise Triple.Separate) :
    (c.compile params).toJson.sortKeys = (c.compile params').toJson.sortKeys := by
  have hpred : ∀ t ∈ c.flattened params, ∃ p, c.predicate? t = some p := fun t ht =>
    c.exists_predicate? (hpath t ht) (hor t ht)
  rw [compile_eq_foldl, compile_eq_foldl]
  have halike := Builder.alike_foldl_overlay_of_perm (c.flattened_perm hperm) hpred hsep .empty
  exact halike.sortKeys_toJson

theorem sortKeys_toJson_compile_ageAndAuthor :
    ((default : Compiler).compile [("age__gt", .string "5"), ("author__name", .string "Ada"),
      ("age__lt", .string "9")]).toJson.sortKeys =
    ((default : Compiler).compile [("age__lt", .string "9"), ("author__name", .string "Ada"),
      ("age__gt", .string "5")]).toJson.sortKeys := by
  have hts : (default : Compiler).flattened [("age__gt", .string "5"),
      ("author__name", .string "Ada"), ("age__lt", .string "9")] =
      [⟨["age"], some (.compare .gt), .string "5"⟩, ⟨["author", "name"], none, .string "Ada"⟩,
        ⟨["age"], some (.compare .lt), .string "9"⟩] := by
    cbv
  have hapart : Apart ["age"] ["author", "name"] := by
    unfold Apart
    decide
  refine sortKeys_toJson_compile_of_perm default (List.reverse_perm _).symm ?_ ?_ ?_
  · simp [hts]
  · simp [hts]
  · have hrange : Triple.Separate ⟨["age"], some (.compare .gt), .string "5"⟩
        ⟨["age"], some (.compare .lt), .string "9"⟩ :=
      Or.inr ⟨rfl, "gt", rfl, "lt", rfl, by decide⟩
    rw [hts, List.pairwise_cons, List.forall_mem_cons, List.forall_mem_singleton]
    exact ⟨⟨Or.inl hapart, hrange⟩, List.pairwise_pair.2 (Or.inl hapart.symm)⟩

end Compiler

end Sieve.Filter
