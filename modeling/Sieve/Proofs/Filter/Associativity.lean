import Mathlib
import Sieve.Proofs.Filter.Faults
import Sieve.Proofs.Filter.KeyWise

/-!
# Filters compiled in parts

Merging is not associative: a tree of another kind in the middle takes away what the first one had,
and what comes last is then laid over less. It is associative among trees of one shape, where no
kind is ever replaced by another. Two lists of operands are of one shape, and so are two operands
that are no lists; a list and another operand are not, although both are leaves.

Shapes are compared in pairs, under the keys that two trees share. The tree that two trees of one
shape merge to has the shape of both. So a run of trees that are of one shape in pairs may be merged
in any grouping, and parameters may be compiled in parts.

## Main definitions

* `Condition.SameKind`, `Tree.SameShape` — conditions and trees that are joined in one way
* `Compiler.subtrees` — the trees of the triples that have a path

## Main results

* `Tree.merge_assoc` — merging is associative among trees of one shape
* `Tree.foldl_merge_append` — a run of trees, merged in parts
* `merge_assoc_and_compile_append` — the same for parameters
-/

namespace Sieve.Filter

/-! ### Conditions of one kind -/

namespace Condition

/-- A membership test. -/
def isMembership : Condition → Bool
  | member _ _ => true
  | _ => false

/-- A comparison with a list of operands. -/
def comparesList : Condition → Bool
  | compare _ (.list _) => true
  | _ => false

/-- Both conditions are membership tests, or both are comparisons with lists, or neither is either
of these. -/
def SameKind (c d : Condition) : Prop :=
  c.isMembership = d.isMembership ∧ c.comparesList = d.comparesList

variable {c d e : Condition}

theorem SameKind.symm (h : SameKind c d) : SameKind d c := ⟨h.1.symm, h.2.symm⟩

theorem SameKind.trans (h : SameKind c d) (h' : SameKind d e) : SameKind c e :=
  ⟨h.1.trans h'.1, h.2.trans h'.2⟩

theorem exists_eq_member (h : c.isMembership = true) : ∃ op vs, c = member op vs := by
  cases c with
  | member op vs => exact ⟨op, vs, rfl⟩
  | _ => cases h

theorem exists_eq_compare_list (h : c.comparesList = true) :
    ∃ op vs, c = compare op (.list vs) := by
  cases c with
  | compare op v =>
    cases v with
    | list vs => exact ⟨op, vs, rfl⟩
    | _ => cases h
  | _ => cases h

/-- A condition without a list of operands takes the place of any other. -/
theorem combine_eq_right (hmember : c.isMembership = false) (hlist : c.comparesList = false)
    (d : Condition) : combine d c = c := by
  unfold combine
  split
  · cases hmember
  · cases hlist
  · rfl

theorem sameKind_combine (h : SameKind d c) : SameKind (combine d c) c := by
  unfold combine
  split
  · exact ⟨rfl, rfl⟩
  · exact ⟨rfl, rfl⟩
  · exact ⟨rfl, rfl⟩

/-- **Conditions of one kind are joined associatively.** -/
theorem combine_assoc (hcd : SameKind c d) (hde : SameKind d e) :
    combine (combine c d) e = combine c (combine d e) := by
  have hce := hcd.trans hde
  cases hmember : e.isMembership with
  | true =>
    obtain ⟨op, us, rfl⟩ := exists_eq_member (hce.1.trans hmember)
    obtain ⟨op', vs, rfl⟩ := exists_eq_member (hde.1.trans hmember)
    obtain ⟨op'', ws, rfl⟩ := exists_eq_member hmember
    simp only [combine, List.append_assoc]
  | false =>
    cases hlist : e.comparesList with
    | true =>
      obtain ⟨op, us, rfl⟩ := exists_eq_compare_list (hce.2.trans hlist)
      obtain ⟨op', vs, rfl⟩ := exists_eq_compare_list (hde.2.trans hlist)
      obtain ⟨op'', ws, rfl⟩ := exists_eq_compare_list hlist
      simp only [combine, List.append_assoc]
    | false => rw [combine_eq_right hmember hlist, combine_eq_right hmember hlist,
        combine_eq_right hmember hlist]

variable {cs ds es : List Condition}

/-- **Conditions are put among others associatively** if those that share a key are of one kind. -/
theorem addAll_assoc (hcs : (cs.map key).Nodup) (hds : (ds.map key).Nodup)
    (hes : (es.map key).Nodup) (hcd : ∀ c ∈ cs, ∀ d ∈ ds, c.key = d.key → SameKind c d)
    (hde : ∀ d ∈ ds, ∀ e ∈ es, d.key = e.key → SameKind d e) :
    addAll (addAll cs ds) es = addAll cs (addAll ds es) := by
  refine keyed_injective ?_
  rw [← keys_keyed] at hcs hds hes
  simp only [keyed_addAll]
  refine Entries.mergeWith_assoc hcs hds hes fun key c d e hc hd he => ?_
  obtain ⟨hc, hck⟩ := mem_of_get?_keyed hc
  obtain ⟨hd, hdk⟩ := mem_of_get?_keyed hd
  obtain ⟨he, hek⟩ := mem_of_get?_keyed he
  exact combine_assoc (hcd c hc d hd (hck.trans hdk.symm)) (hde d hd e he (hdk.trans hek.symm))

/-- What stands under a key after conditions were put among others is of the kind of all that stood
there on either side. -/
theorem sameKind_of_mem_addAll (hcs : (cs.map key).Nodup) (hds : (ds.map key).Nodup)
    (hc : ∀ c ∈ cs, c.key = d.key → SameKind c e) (hd : ∀ c ∈ ds, c.key = d.key → SameKind c e)
    (h : d ∈ addAll cs ds) : SameKind d e := by
  have hnodup := nodup_keys_addAll hcs ds
  rw [← keys_keyed] at hnodup hds
  have hget : Entries.get? (keyed (addAll cs ds)) d.key = some d :=
    (Entries.mem_iff_get? hnodup).1 (List.mem_map_of_mem h)
  rw [keyed_addAll, Entries.get?_mergeWith hds] at hget
  cases hx : Entries.get? (keyed cs) d.key with
  | none =>
    rw [hx] at hget
    have hy : Entries.get? (keyed ds) d.key = some d := by
      rw [← hget]
      cases Entries.get? (keyed ds) d.key <;> rfl
    exact hd d (mem_of_get?_keyed hy).1 rfl
  | some x =>
    obtain ⟨hxmem, hxkey⟩ := mem_of_get?_keyed hx
    have hxe := hc x hxmem hxkey
    cases hy : Entries.get? (keyed ds) d.key with
    | none =>
      obtain rfl : x = d := by simpa [hx, hy] using hget
      exact hxe
    | some y =>
      obtain ⟨hymem, hykey⟩ := mem_of_get?_keyed hy
      have hye := hd y hymem hykey
      have hd : combine x y = d := by simpa [hx, hy] using hget
      rw [← hd]
      exact (sameKind_combine (hxe.trans hye.symm)).trans hye

end Condition

/-! ### Trees of one shape -/

/-- The operand is a list. -/
def Operand.isList : Operand → Bool
  | list _ => true
  | _ => false

namespace Tree

/-- Two trees of one shape: both branches, with trees of one shape under every key that they share;
both alternatives; both lists of operands; both operands that are no lists; or both conditions, of
one kind wherever two of them share a key. -/
inductive SameShape : Tree → Tree → Prop where
  | nested {bs cs : List (String × Tree)}
      (h : ∀ key t s, Entries.get? bs key = some t → Entries.get? cs key = some s →
        SameShape t s) : SameShape (.nested bs) (.nested cs)
  | or (ts ss : List Tree) : SameShape (.or ts) (.or ss)
  | lists (us vs : List Operand) : SameShape (.equals (.list us)) (.equals (.list vs))
  | operands {u v : Operand} (hu : u.isList = false) (hv : v.isList = false) :
    SameShape (.equals u) (.equals v)
  | conditions {cs ds : List Condition}
      (h : ∀ c ∈ cs, ∀ d ∈ ds, c.key = d.key → c.SameKind d) :
    SameShape (.conditions cs) (.conditions ds)

variable {a b c t s : Tree} {bs cs ds : List (String × Tree)}

theorem SameShape.symm (h : SameShape t s) : SameShape s t := by
  induction h with
  | nested _ ih => exact .nested fun key t s ht hs => ih key s t hs ht
  | or ts ss => exact .or ss ts
  | lists us vs => exact .lists vs us
  | operands hu hv => exact .operands hv hu
  | conditions h => exact .conditions fun c hc d hd hkey => (h d hd c hc hkey.symm).symm

/-- Branches whose children under equal keys are of one shape are of one shape. -/
theorem sameShape_nested (h : ∀ p ∈ bs, ∀ q ∈ cs, p.1 = q.1 → SameShape p.2 q.2) :
    SameShape (nested bs) (nested cs) :=
  .nested fun _ _ _ ht hs => h _ (Entries.mem_of_get? ht) _ (Entries.mem_of_get? hs) rfl

theorem SameShape.get? (h : SameShape (Tree.nested bs) (Tree.nested cs)) :
    ∀ key t s, Entries.get? bs key = some t → Entries.get? cs key = some s → SameShape t s := by
  cases h with
  | nested h => exact h

/-- Only branches have the shape of branches. -/
theorem SameShape.exists_branches (h : SameShape (Tree.nested bs) t) :
    ∃ cs, t = Tree.nested cs ∧ ∀ key t s, Entries.get? bs key = some t →
      Entries.get? cs key = some s → SameShape t s := by
  cases h with
  | @nested _ cs h => exact ⟨cs, rfl, h⟩

theorem merge_or_or (ts ss : List Tree) : (or ts).merge (or ss) = or (ts ++ ss) := by rw [merge]

theorem joinOperand_of_not_list {v : Operand} (hv : v.isList = false) (o : Option Operand) :
    joinOperand o v = v := by
  unfold joinOperand
  split
  · cases hv
  · rfl

theorem merge_lists (us vs : List Operand) :
    (equals (.list us)).merge (equals (.list vs)) = equals (.list (us ++ vs)) := by
  rw [merge_equals]
  rfl

theorem merge_operand {v : Operand} (hv : v.isList = false) (t : Tree) :
    t.merge (equals v) = equals v := by
  rw [merge_equals, joinOperand_of_not_list hv]

theorem merge_conditions (ds cs : List Condition) :
    (conditions ds).merge (conditions cs) = conditions (Condition.addAll ds cs) := by
  rw [merge]

/-- Branches are merged associatively if their children are, wherever three meet under one key. -/
theorem merge_nested_assoc (hb : (nested bs).SafeKeys) (hc : (nested cs).SafeKeys)
    (hd : (nested ds).SafeKeys) (hbs : (Entries.keys bs).Nodup) (hcs : (Entries.keys cs).Nodup)
    (hds : (Entries.keys ds).Nodup)
    (h : ∀ key x y z, Entries.get? bs key = some x → Entries.get? cs key = some y →
      Entries.get? ds key = some z → (x.merge y).merge z = x.merge (y.merge z)) :
    ((nested bs).merge (nested cs)).merge (nested ds) =
      (nested bs).merge ((nested cs).merge (nested ds)) := by
  have hbc := hb.merge hc
  have hcd := hc.merge hd
  rw [merge_nested_eq_mergeWith hb hc] at hbc ⊢
  rw [merge_nested_eq_mergeWith hc hd] at hcd ⊢
  rw [merge_nested_eq_mergeWith hbc hd, merge_nested_eq_mergeWith hb hcd,
    Entries.mergeWith_assoc hbs hcs hds h]

/-- **Merging is associative among trees of one shape.** -/
theorem merge_assoc (hab : SameShape a b) (hbc : SameShape b c) (hac : SameShape a c)
    (ha : a.SafeKeys) (hb : b.SafeKeys) (hc : c.SafeKeys)
    (hda : a.DistinctKeys) (hdb : b.DistinctKeys) (hdc : c.DistinctKeys) :
    (a.merge b).merge c = a.merge (b.merge c) := by
  induction hab generalizing c with
  | nested _ ih =>
    obtain ⟨ds, rfl, hcd⟩ := hbc.exists_branches
    have hbd := hac.get?
    obtain ⟨hbs, hbs'⟩ := distinctKeys_nested_iff.1 hda
    obtain ⟨hcs, hcs'⟩ := distinctKeys_nested_iff.1 hdb
    obtain ⟨hds, hds'⟩ := distinctKeys_nested_iff.1 hdc
    refine merge_nested_assoc ha hb hc hbs hcs hds fun key x y z hx hy hz => ?_
    have hx' := Entries.mem_of_get? hx
    have hy' := Entries.mem_of_get? hy
    have hz' := Entries.mem_of_get? hz
    exact ih key x y hx hy (hcd key y z hy hz) (hbd key x z hx hz)
      (safeKeys_nested_iff.1 ha _ hx').2 (safeKeys_nested_iff.1 hb _ hy').2
      (safeKeys_nested_iff.1 hc _ hz').2 (hbs' _ hx') (hcs' _ hy') (hds' _ hz')
  | or ts ss =>
    cases hbc with
    | or _ us => rw [merge_or_or, merge_or_or, merge_or_or, merge_or_or, List.append_assoc]
  | lists us vs =>
    cases hbc with
    | lists _ ws => rw [merge_lists, merge_lists, merge_lists, merge_lists, List.append_assoc]
    | operands hv _ => cases hv
  | operands _ hv =>
    cases hbc with
    | lists _ ws => cases hv
    | operands _ hw => rw [merge_operand hw, merge_operand hw, merge_operand hw]
  | conditions hcd =>
    cases hbc with
    | conditions hde =>
      have hcs := distinctKeys_conditions_iff.1 hda
      have hds := distinctKeys_conditions_iff.1 hdb
      have hes := distinctKeys_conditions_iff.1 hdc
      rw [merge_conditions, merge_conditions, merge_conditions, merge_conditions,
        Condition.addAll_assoc hcs hds hes hcd hde]

/-- **What two trees merge to has the shape of both.** -/
theorem SameShape.merge (hac : SameShape a c) (hbc : SameShape b c) (ha : a.SafeKeys)
    (hb : b.SafeKeys) (hda : a.DistinctKeys) (hdb : b.DistinctKeys) :
    SameShape (a.merge b) c := by
  induction hac generalizing b with
  | @nested bs ds hbd ih =>
    obtain ⟨cs, rfl, hdc⟩ := hbc.symm.exists_branches
    obtain ⟨hbs, hbs'⟩ := distinctKeys_nested_iff.1 hda
    obtain ⟨hcs, hcs'⟩ := distinctKeys_nested_iff.1 hdb
    rw [merge_nested_eq_mergeWith ha hb]
    refine .nested fun key t s ht hs => ?_
    rw [Entries.get?_mergeWith hcs] at ht
    cases hx : Entries.get? bs key with
    | none =>
      cases hy : Entries.get? cs key with
      | none => simp [hx, hy] at ht
      | some y =>
        obtain rfl : y = t := by simpa [hx, hy] using ht
        exact (hdc key s y hs hy).symm
    | some x =>
      cases hy : Entries.get? cs key with
      | none =>
        obtain rfl : x = t := by simpa [hx, hy] using ht
        exact hbd key x s hx hs
      | some y =>
        obtain rfl : x.merge y = t := by simpa [hx, hy] using ht
        have hx' := Entries.mem_of_get? hx
        have hy' := Entries.mem_of_get? hy
        exact ih key x s hx hs (hdc key s y hs hy).symm (safeKeys_nested_iff.1 ha _ hx').2
          (safeKeys_nested_iff.1 hb _ hy').2 (hbs' _ hx') (hcs' _ hy')
  | or ts ss =>
    cases hbc with
    | or us _ =>
      rw [merge_or_or]
      exact .or _ _
  | lists us vs =>
    cases hbc with
    | lists ws _ =>
      rw [merge_lists]
      exact .lists _ _
    | operands _ hv => cases hv
  | operands _ hv =>
    cases hbc with
    | lists ws _ => cases hv
    | operands hw _ =>
      rw [merge_operand hw]
      exact .operands hw hv
  | conditions hcd =>
    cases hbc with
    | conditions hed =>
      rw [merge_conditions]
      exact .conditions fun x hx d hd hkey => Condition.sameKind_of_mem_addAll
        (distinctKeys_conditions_iff.1 hda) (distinctKeys_conditions_iff.1 hdb)
        (fun c hc hck => hcd c hc d hd (hck.trans hkey)) (fun e he hek =>
          hed e he d hd (hek.trans hkey)) hx

/-! ### Runs of trees -/

/-- A branch without unsafe and without repeated keys. -/
structure Branching (t : Tree) : Prop where
  isNested : t.isNested = true
  safeKeys : t.SafeKeys
  distinctKeys : t.DistinctKeys

theorem branching_empty : Branching empty :=
  ⟨rfl, safeKeys_nested_iff.2 (by simp), .nested List.nodup_nil (by simp)⟩

theorem Branching.merge (ht : t.Branching) (hs : s.Branching) : (t.merge s).Branching := by
  refine ⟨?_, ht.safeKeys.merge hs.safeKeys, ht.distinctKeys.merge hs.distinctKeys hs.safeKeys⟩
  obtain ⟨bs, rfl⟩ := exists_branches_of_isNested ht.isNested
  obtain ⟨cs, rfl⟩ := exists_branches_of_isNested hs.isNested
  rw [merge_nested_nested]
  rfl

theorem Branching.merge_empty (ht : t.Branching) : t.merge empty = t := by
  obtain ⟨bs, rfl⟩ := exists_branches_of_isNested ht.isNested
  rw [empty, merge_nested_eq_mergeWith ht.safeKeys branching_empty.safeKeys,
    Entries.mergeWith_nil]

theorem Branching.sameShape_empty (ht : t.Branching) : SameShape empty t := by
  obtain ⟨bs, rfl⟩ := exists_branches_of_isNested ht.isNested
  exact .nested fun key x y hx _ => by simp at hx

theorem Branching.foldl_merge {ts : List Tree} (ht : t.Branching) (hts : ∀ s ∈ ts, s.Branching) :
    (ts.foldl Tree.merge t).Branching := by
  induction ts generalizing t with
  | nil => exact ht
  | cons s ts ih =>
    obtain ⟨hs, hts⟩ := List.forall_mem_cons.1 hts
    exact ih (ht.merge hs) hts

/-- What a run of trees merges to has the shape that all of them have. -/
theorem SameShape.foldl_merge {ts : List Tree} (htc : SameShape t c) (ht : t.Branching)
    (hts : ∀ s ∈ ts, s.Branching ∧ SameShape s c) : SameShape (ts.foldl Tree.merge t) c := by
  induction ts generalizing t with
  | nil => exact htc
  | cons s ts ih =>
    obtain ⟨⟨hs, hsc⟩, hts⟩ := List.forall_mem_cons.1 hts
    exact ih (htc.merge hsc ht.safeKeys hs.safeKeys ht.distinctKeys hs.distinctKeys) (ht.merge hs)
      hts

/-- A run of trees of one shape may be merged first, and then into a tree of their shape. -/
theorem foldl_merge_eq_merge {ts : List Tree} (ht : t.Branching)
    (hts : ∀ s ∈ ts, s.Branching ∧ SameShape t s) (hshape : ts.Pairwise SameShape) :
    ts.foldl merge t = t.merge (ts.foldl merge empty) := by
  induction ts using List.reverseRecOn with
  | nil => exact ht.merge_empty.symm
  | append_singleton ts s ih =>
    rw [List.forall_mem_append, List.forall_mem_singleton] at hts
    obtain ⟨hts, hs, hst⟩ := hts
    obtain ⟨hshape, -, hlast⟩ := List.pairwise_append.1 hshape
    have hall : (ts.foldl merge empty).Branching :=
      branching_empty.foldl_merge fun u hu => (hts u hu).1
    have htall : SameShape (ts.foldl merge empty) t :=
      ht.sameShape_empty.foldl_merge branching_empty fun u hu =>
        ⟨(hts u hu).1, (hts u hu).2.symm⟩
    have hsall : SameShape (ts.foldl merge empty) s :=
      hs.sameShape_empty.foldl_merge branching_empty fun u hu =>
        ⟨(hts u hu).1, hlast u hu s List.mem_cons_self⟩
    rw [List.foldl_append, List.foldl_append, ih hts hshape]
    exact merge_assoc htall.symm hsall hst ht.safeKeys hall.safeKeys hs.safeKeys
      ht.distinctKeys hall.distinctKeys hs.distinctKeys

/-- **A run of trees of one shape may be merged in parts.** -/
theorem foldl_merge_append {ts ss : List Tree} (h : ∀ t ∈ ts ++ ss, t.Branching)
    (hshape : (ts ++ ss).Pairwise SameShape) :
    (ts ++ ss).foldl merge empty = (ts.foldl merge empty).merge (ss.foldl merge empty) := by
  obtain ⟨-, hss, hcross⟩ := List.pairwise_append.1 hshape
  rw [List.forall_mem_append] at h
  rw [List.foldl_append]
  refine foldl_merge_eq_merge (branching_empty.foldl_merge h.1) (fun s hs => ⟨h.2 s hs, ?_⟩) hss
  exact (h.2 s hs).sameShape_empty.foldl_merge branching_empty fun t ht =>
    ⟨h.1 t ht, hcross t ht s hs⟩

end Tree

/-! ### Parameters compiled in parts -/

theorem Tree.distinctKeys_wrap {leaf : Tree} (h : leaf.DistinctKeys) (fields : List String) :
    (wrap fields leaf).DistinctKeys := by
  induction fields with
  | nil => exact h
  | cons f fs ih =>
    exact .nested (List.nodup_singleton f) (List.forall_mem_singleton.2 ih)

theorem Predicate.distinctKeys_leaf (p : Predicate) : p.leaf.DistinctKeys := by
  cases p with
  | equals v => exact .equals v
  | condition c => exact .conditions (List.nodup_singleton c.key)

/-- The tree of a triple is a branch, in which no key repeats. -/
theorem Builder.branching_build? {b : Builder} {t : Triple} {subtree : Tree}
    (h : b.build? t = some subtree) (hsafe : subtree.SafeKeys) : subtree.Branching := by
  obtain ⟨f, fs, hf⟩ : ∃ f fs, t.fields = f :: fs := by
    refine List.exists_cons_of_ne_nil fun hnil => ?_
    rw [build?_eq_none_iff.2 hnil] at h
    cases h
  by_cases hor : t.operator = some .or
  · rw [build?_of_or (by simp [hf]) hor] at h
    obtain rfl := Option.some.inj h
    exact ⟨rfl, hsafe, Tree.distinctKeys_wrap (.or _) _⟩
  · obtain ⟨p, hp⟩ := b.exists_predicate? (by simp [hf]) hor
    rw [build?_of_predicate? hp] at h
    obtain rfl := Option.some.inj h
    exact ⟨by rw [hf]; rfl, hsafe, Tree.distinctKeys_wrap p.distinctKeys_leaf _⟩

namespace Compiler

/-- The trees of the triples of the parameters, in order; a triple without a path has none. -/
def subtrees (c : Compiler) (params : Params) : List Tree :=
  (c.flattened params).filterMap c.build?

theorem compile_eq_foldl_subtrees (c : Compiler) (params : Params) :
    c.compile params = (c.subtrees params).foldl Tree.merge .empty := by
  rw [compile_eq_foldl, subtrees, List.foldl_filterMap]
  congr 1
  funext tree t
  rw [Builder.overlay]
  cases c.build? t <;> rfl

theorem subtrees_append (c : Compiler) (p q : Params) :
    c.subtrees (p ++ q) = c.subtrees p ++ c.subtrees q := by
  simp only [subtrees, flattened, keyedTriples, List.filter_append, List.flatMap_append,
    List.map_append, List.filterMap_append]

end Compiler

/-- **Merging is associative among trees of one shape, so parameters may be compiled in parts.**
Three trees without unsafe and without repeated keys that are of one shape in pairs merge to the
same tree in either grouping, down to the order of keys and of conditions. And if the trees of the
triples of two sets of parameters have no unsafe keys and are of one shape in pairs, then compiling
the one set followed by the other is compiling each and merging the two. -/
theorem merge_assoc_and_compile_append :
    (∀ a b c : Tree, a.SafeKeys → b.SafeKeys → c.SafeKeys →
      a.DistinctKeys → b.DistinctKeys → c.DistinctKeys →
      Tree.SameShape a b → Tree.SameShape b c → Tree.SameShape a c →
        (a.merge b).merge c = a.merge (b.merge c)) ∧
    ∀ (c : Compiler) (p q : Params), (∀ t ∈ c.subtrees (p ++ q), t.SafeKeys) →
      (c.subtrees (p ++ q)).Pairwise Tree.SameShape →
        c.compile (p ++ q) = (c.compile p).merge (c.compile q) := by
  refine ⟨fun a b c ha hb hc hda hdb hdc hab hbc hac =>
    Tree.merge_assoc hab hbc hac ha hb hc hda hdb hdc, fun c p q hsafe hshape => ?_⟩
  have hbranching : ∀ t ∈ c.subtrees (p ++ q), t.Branching := by
    intro t ht
    obtain ⟨triple, -, hbuild⟩ := List.mem_filterMap.1 ht
    exact Builder.branching_build? hbuild (hsafe t ht)
  rw [c.subtrees_append] at hbranching hshape
  rw [c.compile_eq_foldl_subtrees, c.compile_eq_foldl_subtrees, c.compile_eq_foldl_subtrees,
    c.subtrees_append, Tree.foldl_merge_append hbranching hshape]

theorem merge_assoc_and_compile_append_ages :
    (((Tree.nested [("age", .conditions [.member .isIn [.int 1]])]).merge
        (.nested [("age", .conditions [.compare .gt (.int 0), .member .isIn [.int 2]])])).merge
        (.nested [("age", .conditions [.member .isIn [.int 3], .compare .gt (.int 4)])]) =
      (Tree.nested [("age", .conditions [.member .isIn [.int 1]])]).merge
        ((Tree.nested [("age", .conditions [.compare .gt (.int 0), .member .isIn [.int 2]])]).merge
          (.nested [("age", .conditions [.member .isIn [.int 3], .compare .gt (.int 4)])]))) ∧
    (default : Compiler).compile ([("age__in", .string "1,2"), ("name", .string "Ada")] ++
        [("[name]", .string "Bob"), ("age[in]", .string "3")]) =
      ((default : Compiler).compile [("age__in", .string "1,2"), ("name", .string "Ada")]).merge
        ((default : Compiler).compile [("[name]", .string "Bob"), ("age[in]", .string "3")]) := by
  constructor
  · have hleaf : ∀ cs ds : List Condition,
        (∀ c ∈ cs, ∀ d ∈ ds, c.key = d.key → c.SameKind d) →
        Tree.SameShape (.nested [("age", .conditions cs)]) (.nested [("age", .conditions ds)]) :=
      fun cs ds h => Tree.sameShape_nested (by simpa using Tree.SameShape.conditions h)
    have hsafe : ∀ cs, (Tree.nested [("age", .conditions cs)]).SafeKeys := fun cs =>
      Tree.safeKeys_nested_iff.2 (List.forall_mem_singleton.2
        ⟨(by decide : isUnsafeKey "age" = false), .conditions cs⟩)
    have hdistinct : ∀ cs : List Condition, (cs.map Condition.key).Nodup →
        (Tree.nested [("age", .conditions cs)]).DistinctKeys := fun cs h =>
      .nested (List.nodup_singleton _) (List.forall_mem_singleton.2 (.conditions h))
    refine merge_assoc_and_compile_append.1 _ _ _ (hsafe _) (hsafe _) (hsafe _) (hdistinct _ ?_)
      (hdistinct _ ?_) (hdistinct _ ?_) (hleaf _ _ ?_) (hleaf _ _ ?_) (hleaf _ _ ?_)
    · decide
    · decide
    · decide
    all_goals
      simp [Condition.SameKind, Condition.isMembership, Condition.comparesList, Condition.key,
        Comparison.name, Membership.name]
  · have hsubtrees : (default : Compiler).subtrees ([("age__in", .string "1,2"),
        ("name", .string "Ada")] ++ [("[name]", .string "Bob"), ("age[in]", .string "3")]) =
        [.nested [("age", .conditions [.member .isIn [.string "1", .string "2"]])],
          .nested [("name", .equals (.string "Ada"))], .nested [("name", .equals (.string "Bob"))],
          .nested [("age", .conditions [.member .isIn [.string "3"]])]] := by
      cbv
    refine merge_assoc_and_compile_append.2 _ _ _ ?_ ?_
    · have hage : isUnsafeKey "age" = false := by decide
      have hname : isUnsafeKey "name" = false := by decide
      rw [hsubtrees]
      simp [Tree.safeKeys_nested_iff, hage, hname, Tree.SafeKeys.equals, Tree.SafeKeys.conditions]
    · have happart : ∀ t s : Tree, Tree.SameShape (.nested [("age", t)]) (.nested [("name", s)]) :=
        fun t s => Tree.sameShape_nested (by simp)
      have hname : Tree.SameShape (.nested [("name", .equals (.string "Ada"))])
          (.nested [("name", .equals (.string "Bob"))]) :=
        Tree.sameShape_nested (by simpa using Tree.SameShape.operands rfl rfl)
      have hage : Tree.SameShape
          (.nested [("age", .conditions [.member .isIn [.string "1", .string "2"]])])
          (.nested [("age", .conditions [.member .isIn [.string "3"]])]) :=
        Tree.sameShape_nested (by
          simpa using Tree.SameShape.conditions (by
            simp [Condition.SameKind, Condition.isMembership, Condition.comparesList]))
      rw [hsubtrees]
      simp [happart, hname, hage, (happart _ _).symm]

end Sieve.Filter
