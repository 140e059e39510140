import Sieve.Proofs.Filter.KeyWise
import Sieve.Proofs.Filter.Sound
import Sieve.Proofs.Filter.UnsafeKeys
import Sieve.Proofs.Json.Merging

/-!
# Merging trees and merging documents

There are two merges: one of trees, which knows conditions and alternatives, and one of documents,
which sees only objects and lists. They agree as long as a document shows what kind of tree it is
the document of. It does not in two places. Branches and conditions are both objects, and
alternatives and a list of operands are both lists; trees of such a pair replace each other where
their documents are merged.

What else the two merges could disagree on is left out here: unsafe keys, which a document drops
where a tree may keep them, and conditions that ask for nothing, which occupy a key that they do not
write.

## Main definitions

* `Tree.confuses` — two trees of different kinds whose documents are of one kind
* `Tree.Compatible` — there are no such trees at any path of both
* `Tree.Asking` — every condition asks for something

## Main results

* `Condition.flatMap_entries_addAll` — conditions put among others, and their entries merged
* `Tree.toJson_mergeBranches` — branches merged, and their documents merged
* `Tree.Rooted.toJson_merge` — the two merges agree
* `Compiler.toJson_merge_compile` — the same for what a compiler makes of two sets of parameters
-/

namespace Sieve.Filter

/-! ### Trees that look alike in a document -/

namespace Tree

/-- Two trees of different kinds whose documents are both objects, or both lists. -/
def confuses : Tree → Tree → Bool
  | nested _, conditions _ => true
  | conditions _, nested _ => true
  | or _, equals (.list _) => true
  | equals (.list _), or _ => true
  | _, _ => false

/-- Every condition of the tree asks for something. -/
def Asking (t : Tree) : Prop := ∀ path cs, t.getPath? path = some (.conditions cs) → .unset ∉ cs

/-- At no path of both trees are they of two kinds that look alike in a document. -/
def Compatible (t s : Tree) : Prop :=
  ∀ path x y, t.getPath? path = some x → s.getPath? path = some y → x.confuses y = false

variable {t s child old : Tree} {key : String}

theorem Asking.of_get? (h : t.Asking) (hchild : t.get? key = some child) : child.Asking :=
  fun path cs hcs => h (key :: path) cs (by rw [getPath?, hchild, Option.bind_some, hcs])

theorem Asking.unset_not_mem {cs : List Condition} (h : (conditions cs).Asking) : .unset ∉ cs :=
  h [] cs rfl

theorem Compatible.confuses (h : t.Compatible s) : t.confuses s = false := h [] t s rfl rfl

theorem Compatible.of_get? (h : t.Compatible s) (hold : t.get? key = some old)
    (hchild : s.get? key = some child) : old.Compatible child :=
  fun path x y hx hy => h (key :: path) x y (by rw [getPath?, hold, Option.bind_some, hx])
    (by rw [getPath?, hchild, Option.bind_some, hy])

/-- What a path leads to from a tree without children is the tree itself. -/
theorem eq_of_getPath? {path : List String} (ht : t.isNested = false)
    (hs : t.getPath? path = some s) : s = t := by
  cases path with
  | nil => exact (Option.some.inj hs).symm
  | cons key path =>
    obtain ⟨child, hchild, -⟩ := Option.bind_eq_some_iff.1 hs
    cases t with
    | nested bs => cases ht
    | _ => cases hchild

theorem asking_of_not_nested (ht : t.isNested = false) (h : .unset ∉ t.conditionList) :
    t.Asking := by
  intro path cs hcs
  obtain rfl := eq_of_getPath? ht hcs
  exact h

theorem asking_nested {bs : List (String × Tree)} (h : ∀ p ∈ bs, p.2.Asking) :
    (nested bs).Asking := by
  rintro (_ | ⟨key, path⟩) cs hcs
  · cases hcs
  · obtain ⟨child, hchild, hrest⟩ := Option.bind_eq_some_iff.1 hcs
    exact h _ (Entries.mem_of_get? hchild) path cs hrest

theorem compatible_of_not_nested (ht : t.isNested = false) (hs : s.isNested = false)
    (h : t.confuses s = false) : t.Compatible s := by
  intro path x y hx hy
  rwa [eq_of_getPath? ht hx, eq_of_getPath? hs hy]

theorem compatible_nested {bs cs : List (String × Tree)}
    (h : ∀ p ∈ bs, ∀ q ∈ cs, p.1 = q.1 → p.2.Compatible q.2) :
    (nested bs).Compatible (nested cs) := by
  rintro (_ | ⟨key, path⟩) x y hx hy
  · cases hx
    cases hy
    rfl
  · obtain ⟨old, hold, hx⟩ := Option.bind_eq_some_iff.1 hx
    obtain ⟨child, hchild, hy⟩ := Option.bind_eq_some_iff.1 hy
    exact h _ (Entries.mem_of_get? hold) _ (Entries.mem_of_get? hchild) rfl path x y hx hy

end Tree

/-! ### Operands -/

namespace Operand

theorem toJson_list (vs : List Operand) : (list vs).toJson = .array (vs.map toJson) := by
  rw [toJson, toJsonList_eq_map]

theorem isObject_toJson (v : Operand) : v.toJson.isObject = v.isObject := by
  cases v with
  | float x => rw [toJson]; split <;> rfl
  | _ => rw [toJson]; rfl

/-- A scalar takes the place of anything. -/
theorem merge_toJson_of_isScalar (v : Json) {w : Operand} (hw : w.isScalar = true) :
    v.merge w.toJson = w.toJson := by
  cases w with
  | list ws => cases hw
  | object es => cases hw
  | float x => rw [toJson]; split <;> simp [Json.merge]
  | _ => simp [toJson, Json.merge]

/-- The elements of a list. -/
def elements : Operand → List Operand
  | list vs => vs
  | _ => []

theorem items_toJson (v : Operand) : v.toJson.items = v.elements.map toJson := by
  cases v with
  | list vs => rw [toJson_list]; rfl
  | float x => rw [toJson]; split <;> rfl
  | _ => rw [toJson]; rfl

end Operand

namespace Tree

theorem joinOperand_list (o : Option Operand) (vs : List Operand) :
    joinOperand o (.list vs) = .list ((o.map Operand.elements).getD [] ++ vs) := by
  match o with
  | none => rfl
  | some u => cases u <;> rfl

theorem joinOperand_of_isScalar (o : Option Operand) {v : Operand} (hv : v.isScalar = true) :
    joinOperand o v = v := by
  unfold joinOperand
  split
  · cases hv
  · rfl

/-- **An operand over a tree.** -/
theorem toJson_merge_equals {t : Tree} {v : Operand} (hobject : v.isObject = false) (hv : v.Safe)
    (h : t.confuses (.equals v) = false) :
    (t.merge (.equals v)).toJson = t.toJson.merge v.toJson := by
  rw [merge_equals, toJson_equals]
  cases v with
  | object es => cases hobject
  | list vs =>
    have hitems : t.toJson.items =
        ((t.operand?.map Operand.elements).getD []).map Operand.toJson := by
      cases t with
      | or ts => cases h
      | conditions cs => rw [toJson_conditions]; rfl
      | nested bs => rw [toJson_nested]; rfl
      | equals u => rw [toJson_equals]; exact u.items_toJson
    have hsafe : ∀ w ∈ vs.map Operand.toJson, w.isSafe = true :=
      List.forall_mem_map.2 (Operand.safe_list_iff.1 hv)
    rw [Operand.toJson_list, Json.merge_array _ hsafe, joinOperand_list, Operand.toJson_list,
      List.map_append, hitems]
  | _ => rw [Operand.merge_toJson_of_isScalar _ rfl, joinOperand_of_isScalar _ rfl]

theorem confuses_equals_equals (u v : Operand) : (equals u).confuses (.equals v) = false := by
  cases u <;> rfl

/-- An operand over another. -/
theorem toJson_joinOperand (u : Operand) {v : Operand} (hobject : v.isObject = false)
    (hv : v.Safe) : (joinOperand (some u) v).toJson = u.toJson.merge v.toJson := by
  have h := toJson_merge_equals hobject hv (confuses_equals_equals u v)
  rwa [merge_equals, toJson_equals, toJson_equals] at h

end Tree

/-! ### Conditions -/

/-- The condition is one that the builder can make, and it asks for something. -/
def Builder.Asks (b : Builder) (c : Condition) : Prop := b.Admits (fun _ => True) c ∧ c ≠ .unset

namespace Condition

variable {b : Builder} {c d : Condition} {cs ds : List Condition}

/-- The two conditions differ at most in their operands. -/
inductive Alike : Condition → Condition → Prop where
  | compare {op op' : Comparison} (hop : op.name = op'.name) (u v : Operand) :
    Alike (.compare op u) (.compare op' v)
  | contains (s s' : String) (m m' : Option Mode) : Alike (.contains s m) (.contains s' m')
  | member {op op' : Membership} (hop : op.name = op'.name) (us vs : List Operand) :
    Alike (.member op us) (.member op' vs)

/-- Only a condition that asks for nothing occupies the key of another kind. -/
theorem alike_of_key_eq (h : d.key = c.key) (hd : d ≠ .unset) (hc : c ≠ .unset) : Alike d c := by
  cases d with
  | unset => exact absurd rfl hd
  | compare op u =>
    cases c with
    | unset => exact absurd rfl hc
    | compare op' v => exact .compare h u v
    | contains s m => exact absurd h op.name_ne_contains
    | member op' vs => exact absurd h (op.name_ne_name op')
  | contains s m =>
    cases c with
    | unset => exact absurd rfl hc
    | compare op v => exact absurd h.symm op.name_ne_contains
    | contains s' m' => exact .contains s s' m m'
    | member op vs => exact absurd h.symm op.name_ne_contains
  | member op us =>
    cases c with
    | unset => exact absurd rfl hc
    | compare op' v => exact absurd h.symm (op'.name_ne_name op)
    | contains s m => exact absurd h op.name_ne_contains
    | member op' vs => exact .member h us vs

theorem entries_combine_compare {op op' : Comparison} (h : op.name = op'.name) (u v : Operand) :
    (combine (compare op u) (compare op' v)).entries =
      [(op'.name, (Tree.joinOperand (some u) v).toJson)] := by
  cases v with
  | list vs =>
    cases u with
    | list us => rw [← h]; rfl
    | _ => rfl
  | _ => cases u <;> rfl

/-- **One condition over another with its key.** They write to the same keys, and what they write
together is what their entries are merged to. -/
theorem entries_combine (h : d.key = c.key) (hd : b.Asks d) (hc : b.Asks c) (hsafe : c.Safe) :
    Entries.keys c.entries = Entries.keys d.entries ∧
      (combine d c).entries = Json.mergeEntries d.entries c.entries := by
  obtain ⟨hdadmits, hdne⟩ := hd
  obtain ⟨hcadmits, hcne⟩ := hc
  have hcsafe : ∀ e ∈ c.entries, isUnsafeKey e.1 = false := fun e he => (hsafe e he).1
  cases alike_of_key_eq h hdne hcne with
  | @compare op op' hop u v =>
    have hname : isUnsafeKey op'.name = false := hcsafe _ (List.mem_singleton.2 rfl)
    rw [entries_combine_compare hop, entries, entries, hop, Json.mergeEntries_singleton hname,
      Tree.toJson_joinOperand u hcadmits.1 (safe_compare_iff.1 hsafe)]
    exact ⟨rfl, rfl⟩
  | @member op op' hop us vs =>
    have hname : isUnsafeKey op'.name = false := hcsafe _ (List.mem_singleton.2 rfl)
    have hvs : ∀ w ∈ vs.map Operand.toJson, w.isSafe = true :=
      List.forall_mem_map.2 (safe_member_iff.1 hsafe)
    rw [combine, entries, entries, entries, hop, Json.mergeEntries_singleton hname]
    simp [Operand.toJsonList_eq_map, Json.merge_array _ hvs, Json.items]
  | contains s s' m m' =>
    have hmodes : m.isSome = m'.isSome := Eq.trans hdadmits (Eq.symm hcadmits)
    have hcombine : combine (.contains s m) (.contains s' m') = .contains s' m' := rfl
    have hcontains : isUnsafeKey "contains" = false := by decide
    have hmode : isUnsafeKey "mode" = false := by decide
    rw [hcombine]
    -- The provider decides whether there is a mode, so that both have one or neither has.
    cases m with
    | none =>
      obtain rfl : m' = none := by simpa using hmodes.symm
      refine ⟨rfl, ?_⟩
      simp [entries, Json.mergeEntries_singleton hcontains, Json.merge]
    | some m =>
      obtain ⟨m', rfl⟩ := Option.isSome_iff_exists.1 hmodes.symm
      refine ⟨rfl, ?_⟩
      simp [entries, Json.mergeEntries_cons, Json.mergeEntries, hcontains, hmode, Entries.get?_cons,
        Entries.insert, Json.lay, Json.merge]

theorem combine_ne_unset (hc : c ≠ .unset) : combine d c ≠ .unset := by
  unfold combine
  split
  · exact Condition.noConfusion
  · exact Condition.noConfusion
  · exact hc

/-- **A condition put among others.** -/
theorem flatMap_entries_add (hds : ∀ d ∈ ds, b.Asks d) (hc : b.Asks c) (hsafe : c.Safe) :
    (add ds c).flatMap entries = Json.mergeEntries (ds.flatMap entries) c.entries := by
  induction ds with
  | nil =>
    have h := Json.mergeEntries_nil_left (nodup_keys_entries c) (Json.isSafe_object.2 hsafe)
    rw [add, List.flatMap_singleton, List.flatMap_nil, h]
  | cons d ds ih =>
    obtain ⟨hd, hds⟩ := List.forall_mem_cons.1 hds
    rw [add, List.flatMap_cons]
    by_cases h : d.key = c.key
    · obtain ⟨hkeys, hentries⟩ := entries_combine h hd hc hsafe
      rw [if_pos h, List.flatMap_cons, hentries,
        Json.mergeEntries_append_of_subset fun k hk => hkeys ▸ hk]
    · rw [if_neg h, List.flatMap_cons, ih hds,
        Json.mergeEntries_append_of_disjoint (disjoint_keys_entries h)]

/-- **Conditions put among others.** -/
theorem flatMap_entries_addAll (hds : ∀ d ∈ ds, b.Asks d) (hcs : ∀ c ∈ cs, b.Asks c ∧ c.Safe) :
    (addAll ds cs).flatMap entries =
      Json.mergeEntries (ds.flatMap entries) (cs.flatMap entries) := by
  rw [addAll]
  induction cs generalizing ds with
  | nil => rw [List.foldl_nil, List.flatMap_nil, Json.mergeEntries]
  | cons c cs ih =>
    obtain ⟨⟨hc, hsafe⟩, hcs⟩ := List.forall_mem_cons.1 hcs
    have hadd : ∀ d ∈ add ds c, b.Asks d := forall_mem_add hds hc fun d hd _ =>
      ⟨(hds d hd).1.combine Operand.joinClosed_true hc.1, combine_ne_unset hc.2⟩
    rw [List.foldl_cons, ih hadd hcs, flatMap_entries_add hds hc hsafe, List.flatMap_cons,
      Json.mergeEntries_append]

end Condition

/-! ### Branches -/

namespace Tree

/-- A document without unsafe keys is the document of a tree without them. -/
theorem Safe.safeKeys : (t : Tree) → t.Safe → t.SafeKeys
  | equals v, _ => .equals v
  | conditions cs, _ => .conditions cs
  | or ts, h => .or fun u hu => safeKeys u (safe_or_iff.1 h u hu)
  | Tree.nested bs, h => safeKeys_nested_iff.2 fun p hp =>
    ⟨(safe_nested_iff.1 h p hp).1, safeKeys p.2 (safe_nested_iff.1 h p hp).2⟩
termination_by t => sizeOf t
decreasing_by
  · have hlt := List.sizeOf_lt_of_mem hu
    simp only [or.sizeOf_spec]
    omega
  · have hlt := List.sizeOf_lt_of_mem hp
    obtain ⟨k, u⟩ := p
    simp only [Prod.mk.sizeOf_spec, nested.sizeOf_spec] at hlt ⊢
    omega

theorem sanitize_of_safe (t : Tree) (h : t.Safe) : t.sanitize = t := (h.safeKeys t).sanitize_eq

/-- **Branches merged, and their documents merged.** Since no key comes twice in the source, what a
branch is laid over is what stood under its key to begin with. -/
theorem toJson_mergeBranches {target source : List (String × Tree)}
    (hkeys : (Entries.keys source).Nodup)
    (h : ∀ p ∈ source, (lay (Entries.get? target p.1) p.2).toJson =
      Json.lay ((Entries.get? target p.1).map toJson) p.2.toJson) :
    (mergeBranches target source).map (fun p => (p.1, p.2.toJson)) =
      Json.mergeEntries (target.map fun p => (p.1, p.2.toJson))
        (source.map fun p => (p.1, p.2.toJson)) := by
  induction source generalizing target with
  | nil => rw [mergeBranches, List.map_nil, Json.mergeEntries]
  | cons p source ih =>
    obtain ⟨k, t⟩ := p
    obtain ⟨hk, hnodup⟩ := List.nodup_cons.1 hkeys
    obtain ⟨ht, hsource⟩ := List.forall_mem_cons.1 h
    rw [mergeBranches_cons, List.map_cons, Json.mergeEntries_cons]
    split
    · exact ih hnodup hsource
    · rw [ih hnodup, Entries.map_insert, Entries.get?_map_snd, ht]
      intro p hp
      have hmem : p.1 ∈ Entries.keys source := List.mem_map_of_mem hp
      have hne : p.1 ≠ k := fun e => hk (e ▸ hmem)
      rw [Entries.get?_insert_of_ne _ hne]
      exact hsource p hp

/-! ### The two merges -/

variable {b : Builder} {t s child old : Tree} {key : String}

/-- **Alternatives over a tree.** -/
theorem toJson_merge_or {ss : List Tree} (hss : (or ss).Safe) (h : t.confuses (or ss) = false) :
    (t.merge (or ss)).toJson = t.toJson.merge (or ss).toJson := by
  have hmerge : t.merge (or ss) = or (t.alternatives ++ ss) := merge_or t (hss.safeKeys _)
  have hitems : t.toJson.items = t.alternatives.map toJson := by
    cases t with
    | or ts => rw [toJson_or]; rfl
    | conditions cs => rw [toJson_conditions]; rfl
    | nested bs => rw [toJson_nested]; rfl
    | equals v =>
      rw [toJson_equals, Operand.items_toJson]
      cases v with
      | list vs => cases h
      | _ => rfl
  have hjson : ∀ v ∈ ss.map toJson, v.isSafe = true := List.forall_mem_map.2 (safe_or_iff.1 hss)
  rw [hmerge, toJson_or, toJson_or, Json.merge_array _ hjson, hitems, List.map_append]

/-- A tree whose document is no object gives way to conditions. -/
theorem toJson_merge_conditions_of_not_object {cs : List Condition}
    (ht : t.toJson.isObject = false) (hcs : (conditions cs).Safe) :
    (t.merge (conditions cs)).toJson = t.toJson.merge (conditions cs).toJson := by
  have hmerge : t.merge (conditions cs) = conditions cs := by
    cases t with
    | conditions ds => rw [toJson_conditions] at ht; cases ht
    | _ => rfl
  rw [Safe, toJson_conditions] at hcs
  rw [hmerge, toJson_conditions, Json.merge_object_of_not_object ht hcs]

/-- A tree whose document is no object gives way to branches. -/
theorem toJson_merge_nested_of_not_object {bs : List (String × Tree)}
    (ht : t.toJson.isObject = false) (hbs : (nested bs).Safe) :
    (t.merge (nested bs)).toJson = t.toJson.merge (nested bs).toJson := by
  have hmerge : t.merge (nested bs) = nested bs := by
    cases t with
    | nested bs' => rw [toJson_nested] at ht; cases ht
    | _ => exact sanitize_of_safe _ hbs
  rw [Safe, toJson_nested] at hbs
  rw [hmerge, toJson_nested, Json.merge_object_of_not_object ht hbs]

/-- **Conditions over conditions.** -/
theorem toJson_merge_conditions {ds cs : List Condition} (hds : ∀ d ∈ ds, b.Asks d)
    (hcs : ∀ c ∈ cs, b.Asks c) (hdsafe : (conditions ds).Safe) (hcsafe : (conditions cs).Safe) :
    ((conditions ds).merge (conditions cs)).toJson =
      (conditions ds).toJson.merge (conditions cs).toJson := by
  have hsafe := safe_conditions_iff.1 hcsafe
  have hentries := Condition.flatMap_entries_addAll hds fun c hc => ⟨hcs c hc, hsafe c hc⟩
  rw [Safe, toJson_conditions] at hdsafe
  rw [merge, toJson_conditions, hentries, toJson_conditions, toJson_conditions,
    Json.merge_object_object hdsafe]

/-- **Branches over branches**, if the merges agree wherever one branch is laid over another. -/
theorem toJson_merge_nested {bs cs : List (String × Tree)} (hbs : (nested bs).Safe)
    (hcs : (nested cs).Safe) (hkeys : (Entries.keys cs).Nodup)
    (h : ∀ p ∈ cs, ∀ old, Entries.get? bs p.1 = some old →
      (old.merge p.2).toJson = old.toJson.merge p.2.toJson) :
    ((nested bs).merge (nested cs)).toJson = (nested bs).toJson.merge (nested cs).toJson := by
  have hsafe : safeEntries bs = bs :=
    Entries.safeEntries_of_forall fun p hp => (safe_nested_iff.1 hbs p hp).1
  have hlay : ∀ p ∈ cs, (lay (Entries.get? bs p.1) p.2).toJson =
      Json.lay ((Entries.get? bs p.1).map toJson) p.2.toJson := by
    intro p hp
    have hp2 : p.2.Safe := (safe_nested_iff.1 hcs p hp).2
    cases hget : Entries.get? bs p.1 with
    | some old => exact h p hp old hget
    | none =>
      rw [lay, sanitize_of_safe _ hp2, Option.map_none, Json.lay, Json.sanitize_of_isSafe _ hp2]
  rw [Safe, toJson_nested] at hbs
  rw [merge_nested_nested, hsafe, toJson_nested, toJson_mergeBranches hkeys hlay, toJson_nested,
    toJson_nested, Json.merge_object_object hbs]

/-- What is known of the two trees that are merged. -/
structure Mergeable (t s : Tree) : Prop where
  safe_target : t.Safe
  safe_source : s.Safe
  asking_target : t.Asking
  asking_source : s.Asking
  compatible : t.Compatible s

theorem Safe.of_get? (h : t.Safe) (hchild : t.get? key = some child) : child.Safe := by
  rw [← get?_branches] at hchild
  exact (h.branches _ (Entries.mem_of_get? hchild)).2

theorem Mergeable.of_get? (h : Mergeable t s) (hold : t.get? key = some old)
    (hchild : s.get? key = some child) : Mergeable old child where
  safe_target := h.safe_target.of_get? hold
  safe_source := h.safe_source.of_get? hchild
  asking_target := h.asking_target.of_get? hold
  asking_source := h.asking_source.of_get? hchild
  compatible := h.compatible.of_get? hold hchild

/-- Sound conditions that ask for something are conditions that the builder asks with. -/
theorem Sound.asks {cs : List Condition} (h : Sound b (fun _ => True) (.conditions cs))
    (hask : (Tree.conditions cs).Asking) : ∀ c ∈ cs, b.Asks c := by
  cases h with
  | conditions _ _ hcs => exact fun c hc => ⟨hcs c hc, fun e => hask.unset_not_mem (e ▸ hc)⟩

variable {P : Operand → Prop}

theorem Stands.sound (h : Stands b P key t) (hor : t.isOr = false) : Sound b P t := by
  rcases h with h | ⟨-, ts, rfl, -⟩
  · exact h
  · cases hor

/-- Only conditions and branches have an object as their document. -/
theorem Stands.isObject_toJson_cases (h : Stands b P key t) :
    t.toJson.isObject = false ∨ (∃ cs, t = .conditions cs) ∨ ∃ bs, t = .nested bs := by
  rcases h with h | ⟨-, ts, rfl, -⟩
  · cases h with
    | equals hobject _ => exact .inl (by rw [toJson_equals, Operand.isObject_toJson, hobject])
    | conditions _ _ _ => exact .inr (.inl ⟨_, rfl⟩)
    | nested _ _ => exact .inr (.inr ⟨_, rfl⟩)
  · exact .inl (by rw [toJson_or]; rfl)

/-- **What stands under a field, over what stood under its key.** -/
theorem Sound.toJson_merge (hs : Sound b (fun _ => True) s) (ht : Stands b (fun _ => True) key t)
    (h : Mergeable t s) : (t.merge s).toJson = t.toJson.merge s.toJson := by
  -- On the source, for every target: what a path leads to in the source meets whatever the target
  -- has there, and under the reserved key these can be alternatives.
  induction hs generalizing t key with
  | equals hobject _ =>
    rw [toJson_equals]
    exact toJson_merge_equals hobject (safe_equals_iff.1 h.safe_source) h.compatible.confuses
  | conditions hne hkeys hcs =>
    rcases ht.isObject_toJson_cases with hobject | ⟨ds, rfl⟩ | ⟨bs, rfl⟩
    · exact toJson_merge_conditions_of_not_object hobject h.safe_source
    · exact toJson_merge_conditions ((ht.sound rfl).asks h.asking_target)
        ((Sound.conditions hne hkeys hcs).asks h.asking_source) h.safe_target h.safe_source
    · cases h.compatible.confuses
  | @nested cs hkeys hcs ih =>
    rcases ht.isObject_toJson_cases with hobject | ⟨ds, rfl⟩ | ⟨bs, rfl⟩
    · exact toJson_merge_nested_of_not_object hobject h.safe_source
    · cases h.compatible.confuses
    · refine toJson_merge_nested h.safe_target h.safe_source hkeys fun p hp old hold => ?_
      have hstands : Stands b (fun _ => True) p.1 old := by
        cases ht.sound rfl with
        | nested _ hbs => exact .inl (hbs _ (Entries.mem_of_get? hold))
      exact ih p hp hstands (h.of_get? hold ((Entries.mem_iff_get? hkeys).1 hp))

theorem Stands.toJson_merge (ht : Stands b (fun _ => True) key t)
    (hs : Stands b (fun _ => True) key s) (h : Mergeable t s) :
    (t.merge s).toJson = t.toJson.merge s.toJson := by
  rcases hs with hs | ⟨-, ss, rfl, -⟩
  · exact hs.toJson_merge ht h
  · exact toJson_merge_or h.safe_source h.compatible.confuses

/-- **The two merges agree** on whole trees. -/
theorem Rooted.toJson_merge (ht : Rooted b (fun _ => True) t) (hs : Rooted b (fun _ => True) s)
    (h : Mergeable t s) : (t.merge s).toJson = t.toJson.merge s.toJson := by
  cases ht with
  | nested _ hbs =>
    cases hs with
    | nested hkeys hcs =>
      refine toJson_merge_nested h.safe_target h.safe_source hkeys fun p hp old hold => ?_
      exact Stands.toJson_merge (hbs _ (Entries.mem_of_get? hold)) (hcs p hp)
        (h.of_get? hold ((Entries.mem_iff_get? hkeys).1 hp))

end Tree

/-! ### Compiled trees -/

namespace Compiler

variable (c : Compiler) (p q : Params)

/-- **Merging what a compiler makes of two sets of parameters.** If no condition of the two trees
asks for nothing, no key of their documents is unsafe, and at no path of both trees they are of two
kinds that look the same in a document, then the document of the merged trees is the one that comes
of merging the documents. -/
theorem toJson_merge_compile (hp : (c.compile p).Asking) (hq : (c.compile q).Asking)
    (hpsafe : (c.compile p).toJson.isSafe = true) (hqsafe : (c.compile q).toJson.isSafe = true)
    (h : (c.compile p).Compatible (c.compile q)) :
    ((c.compile p).merge (c.compile q)).toJson =
      (c.compile p).toJson.merge (c.compile q).toJson := by
  have hrooted (params : Params) : Tree.Rooted c.toBuilder (fun _ => True) (c.compile params) :=
    rooted_compile Operand.joinClosed_true fun _ _ leaf _ => Builder.feeds_true leaf.2
  exact (hrooted p).toJson_merge (hrooted q) ⟨hpsafe, hqsafe, hp, hq, h⟩

/-- Bounds and alternatives of two layers. -/
theorem toJson_merge_compile_bounds :
    ((Compiler.compile default [("n__gt", .string "4"), ("a__or", .string "1")]).merge
      (Compiler.compile default [("n__lt", .string "5"), ("b__or", .string "2")])).toJson =
    (Compiler.compile default [("n__gt", .string "4"), ("a__or", .string "1")]).toJson.merge
      (Compiler.compile default [("n__lt", .string "5"), ("b__or", .string "2")]).toJson := by
  have hearlier : Compiler.compile default [("n__gt", .string "4"), ("a__or", .string "1")] =
      .nested [("n", .conditions [.compare .gt (.string "4")]),
        ("OR", .or [.nested [("a", .equals (.string "1"))]])] := by
    cbv
  have hlater : Compiler.compile default [("n__lt", .string "5"), ("b__or", .string "2")] =
      .nested [("n", .conditions [.compare .lt (.string "5")]),
        ("OR", .or [.nested [("b", .equals (.string "2"))]])] := by
    cbv
  refine toJson_merge_compile default _ _ ?_ ?_ (by cbv) (by cbv) ?_
  · rw [hearlier]
    refine Tree.asking_nested (List.forall_mem_cons.2 ⟨?_, List.forall_mem_singleton.2 ?_⟩)
    · exact Tree.asking_of_not_nested rfl (by simp [Tree.conditionList])
    · exact Tree.asking_of_not_nested rfl List.not_mem_nil
  · rw [hlater]
    refine Tree.asking_nested (List.forall_mem_cons.2 ⟨?_, List.forall_mem_singleton.2 ?_⟩)
    · exact Tree.asking_of_not_nested rfl (by simp [Tree.conditionList])
    · exact Tree.asking_of_not_nested rfl List.not_mem_nil
  · rw [hearlier, hlater]
    refine Tree.compatible_nested ?_
    simp only [List.forall_mem_cons, List.not_mem_nil, false_implies, implies_true, and_true]
    refine ⟨⟨fun _ => ?_, fun hne => ?_⟩, fun hne => ?_, fun _ => ?_⟩
    · exact Tree.compatible_of_not_nested rfl rfl rfl
    · exact absurd hne (by decide)
    · exact absurd hne (by decide)
    · exact Tree.compatible_of_not_nested rfl rfl rfl

-- Branches take the place of conditions, while the objects that stand for them are merged.
example :
    let earlier := Compiler.compile default [("n__gt", .string "4")]
    let later := Compiler.compile default [("n__x", .string "5")]
    (earlier.merge later).toJson = .object [("n", .object [("x", .string "5")])] ∧
      earlier.toJson.merge later.toJson =
        .object [("n", .object [("gt", .string "4"), ("x", .string "5")])] := by
  refine ⟨?_, ?_⟩ <;> cbv

end Compiler

end Sieve.Filter
