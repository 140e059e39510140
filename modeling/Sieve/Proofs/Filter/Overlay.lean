import Sieve.Filter.Compiler
import Sieve.Proofs.Json.Lookup

/-!
# Laying one triple over a tree

The tree of a triple is a chain: one branch for each field, and a leaf at the end. Merging such a
chain into a tree changes the tree along one path only, and a place where the tree has no branches
counts as the empty branch. `Tree.merge_wrap_cons` says so for one field, so that everything about
compiled trees is shown by induction on the fields of one triple and then on the triples.

## Main definitions

* `Tree.branches` — the branches of a tree; a leaf has none
* `Builder.overlay` — lays the tree of one triple over a tree

## Main results

* `Tree.sanitize_wrap` — what is dropped from a chain is what merging it into nothing drops
* `Tree.merge_wrap_cons` — merging a chain, one field at a time
* `Compiler.compile_eq_foldl` — a compiled tree is its triples laid over one another in turn
-/

namespace Sieve.Filter

/-! ### Trees as documents -/

namespace Tree

theorem toJsonList_eq_map (ts : List Tree) : toJsonList ts = ts.map toJson := by
  induction ts with
  | nil => rfl
  | cons t ts ih => rw [toJsonList, ih, List.map_cons]

theorem toJsonBranches_eq_map (bs : List (String × Tree)) :
    toJsonBranches bs = bs.map fun p => (p.1, p.2.toJson) := by
  induction bs with
  | nil => rfl
  | cons p bs ih =>
    obtain ⟨k, t⟩ := p
    rw [toJsonBranches, ih, List.map_cons]

theorem toJson_equals (v : Operand) : (equals v).toJson = v.toJson := by rw [toJson]

theorem toJson_conditions (cs : List Condition) :
    (conditions cs).toJson = .object (cs.flatMap Condition.entries) := by rw [toJson]

theorem toJson_or (ts : List Tree) : (or ts).toJson = .array (ts.map toJson) := by
  rw [toJson, toJsonList_eq_map]

theorem toJson_nested (bs : List (String × Tree)) :
    (nested bs).toJson = .object (bs.map fun p => (p.1, p.2.toJson)) := by
  rw [toJson, toJsonBranches_eq_map]

/-- The branches of a tree; leaves and alternatives have none. -/
def branches : Tree → List (String × Tree)
  | nested bs => bs
  | _ => []

@[simp] theorem branches_nested (bs : List (String × Tree)) : (nested bs).branches = bs := rfl

theorem get?_branches (t : Tree) (key : String) : Entries.get? t.branches key = t.get? key := by
  cases t <;> rfl

/-- The tree has branches, if perhaps not any. -/
def isNested : Tree → Bool
  | nested _ => true
  | _ => false

/-! ### Dropping unsafe keys -/

theorem sanitizeList_eq_map (ts : List Tree) : sanitizeList ts = ts.map sanitize := by
  induction ts with
  | nil => rfl
  | cons t ts ih => rw [sanitizeList, ih, List.map_cons]

/-! ### Merging a chain -/

/-- Merging drops from a chain what `sanitize` drops. -/
theorem sanitize_wrap {leaf : Tree} (hleaf : leaf.isNested = false) (fields : List String) :
    sanitize (wrap fields leaf) = empty.merge (wrap fields leaf) := by
  cases fields with
  | nil =>
    cases leaf with
    | equals v => simp [empty, merge, sanitize]
    | conditions cs => simp [empty, merge, sanitize]
    | or ts => simp [empty, merge, sanitize]
    | nested bs => simp [isNested] at hleaf
  | cons f fs =>
    rw [wrap_cons, empty, merge, mergeBranches, sanitize, sanitizeBranches]
    cases isUnsafeKey f <;> simp [mergeBranches, sanitizeBranches, safeEntries]

theorem merge_nested_wrap_cons {leaf : Tree} (hleaf : leaf.isNested = false)
    (bs : List (String × Tree)) (f : String) (fs : List String) :
    (nested bs).merge (wrap (f :: fs) leaf) = nested (if isUnsafeKey f then safeEntries bs
      else Entries.insert (safeEntries bs) f
        (((Entries.get? bs f).getD empty).merge (wrap fs leaf))) := by
  rw [wrap_cons, merge, mergeBranches]
  cases hf : isUnsafeKey f with
  | true => simp [mergeBranches]
  | false =>
    have hget : Entries.get? (safeEntries bs) f = Entries.get? bs f := by
      simp [Entries.get?_safeEntries, hf]
    rw [hget]
    cases hold : Entries.get? bs f with
    | some old => simp [mergeBranches]
    | none =>
      rw [hold] at hget
      simp [mergeBranches, Entries.insert_of_get?_eq_none _ hget, sanitize_wrap hleaf]

/-- A tree of another kind gives way to branches. -/
theorem merge_nested_of_not_nested {t : Tree} (ht : t.isNested = false)
    (bs : List (String × Tree)) : t.merge (nested bs) = (nested bs).sanitize := by
  cases t with
  | nested bs' => simp [isNested] at ht
  | equals v => simp [merge, sanitize]
  | conditions cs => simp [merge, sanitize]
  | or ts => simp [merge, sanitize]

/-- **Merging a chain, one field at a time.** What stands under the field is merged with the rest of
the chain, and where nothing stands the rest is merged into the empty branch. -/
theorem merge_wrap_cons {leaf : Tree} (hleaf : leaf.isNested = false) (t : Tree) (f : String)
    (fs : List String) :
    t.merge (wrap (f :: fs) leaf) = nested (if isUnsafeKey f then safeEntries t.branches
      else Entries.insert (safeEntries t.branches) f
        (((t.get? f).getD empty).merge (wrap fs leaf))) := by
  cases ht : t.isNested with
  | true =>
    obtain ⟨bs, rfl⟩ : ∃ bs, t = nested bs := by
      cases t <;> simp_all [isNested]
    rw [merge_nested_wrap_cons hleaf, branches_nested, get?]
  | false =>
    have hbs : t.branches = [] := by cases t <;> simp_all [isNested, branches]
    rw [wrap_cons, merge_nested_of_not_nested ht, ← wrap_cons, sanitize_wrap hleaf]
    show (nested []).merge (wrap (f :: fs) leaf) = _
    rw [merge_nested_wrap_cons hleaf, ← get?_branches, hbs]

/-- Under the field stands the merged rest of the chain, and under any other key what stood there.
Nothing stands under an unsafe key. -/
theorem get?_merge_wrap_cons {leaf : Tree} (hleaf : leaf.isNested = false) (t : Tree) (f : String)
    (fs : List String) (key : String) :
    (t.merge (wrap (f :: fs) leaf)).get? key = if isUnsafeKey key then none
      else if key = f then some (((t.get? f).getD empty).merge (wrap fs leaf)) else t.get? key := by
  have hsafe : Entries.get? (safeEntries t.branches) key =
      if isUnsafeKey key then none else t.get? key := by
    rw [Entries.get?_safeEntries, get?_branches]
  rw [merge_wrap_cons hleaf, get?]
  by_cases hk : key = f
  · subst hk
    cases hu : isUnsafeKey key <;> simp [hu, hsafe]
  · rw [if_neg hk, ← hsafe]
    split
    · rfl
    · exact Entries.get?_insert_of_ne _ hk

theorem keys_eq_keys_branches (t : Tree) : t.keys = Entries.keys t.branches := by
  cases t <;> rfl

theorem nodup_keys_merge_wrap_cons {leaf : Tree} (hleaf : leaf.isNested = false) {t : Tree}
    (ht : t.keys.Nodup) (f : String) (fs : List String) :
    (t.merge (wrap (f :: fs) leaf)).keys.Nodup := by
  rw [keys_eq_keys_branches] at ht
  have hsafe := Entries.nodup_keys_safeEntries ht
  rw [merge_wrap_cons hleaf, keys]
  split
  · exact hsafe
  · exact Entries.nodup_keys_insert _ hsafe

/-! ### Merging a leaf -/

/-- The conditions of a leaf; any other tree has none. -/
def conditionList : Tree → List Condition
  | conditions cs => cs
  | _ => []

/-- The bare operand of a leaf. -/
def operand? : Tree → Option Operand
  | equals v => some v
  | _ => none

theorem operand?_eq_some_iff {t : Tree} {v : Operand} : t.operand? = some v ↔ t = equals v := by
  cases t <;> simp [operand?]

/-- Only a leaf of conditions has any. -/
theorem eq_conditions_of_mem {t : Tree} {c : Condition} (h : c ∈ t.conditionList) :
    t = conditions t.conditionList := by
  cases t with
  | conditions cs => rfl
  | equals v => cases h
  | or ts => cases h
  | nested bs => cases h

/-- The operand `v` over one that may be there: two lists are joined. -/
def joinOperand : Option Operand → Operand → Operand
  | some (.list vs), .list ws => .list (vs ++ ws)
  | _, v => v

theorem merge_equals (t : Tree) (v : Operand) :
    t.merge (equals v) = equals (joinOperand t.operand? v) := by
  cases t with
  | equals u => cases u <;> cases v <;> simp [merge, operand?, joinOperand]
  | conditions cs => simp [merge, operand?, joinOperand]
  | or ts => simp [merge, operand?, joinOperand]
  | nested bs => simp [merge, operand?, joinOperand]

theorem merge_condition (t : Tree) (c : Condition) :
    t.merge (conditions [c]) = conditions (Condition.add t.conditionList c) := by
  cases t <;> simp [merge, conditionList, Condition.addAll, Condition.add]

end Tree

/-! ### The parts of a triple's tree -/

/-- What a triple says of its last field: a bare operand, or one condition. -/
inductive Predicate where
  | equals (operand : Operand)
  | condition (c : Condition)

namespace Predicate

/-- The leaf that holds the predicate. -/
def leaf : Predicate → Tree
  | equals v => .equals v
  | condition c => .conditions [c]

/-- The key that the predicate occupies below its field; a bare operand occupies none. -/
def key? : Predicate → Option String
  | equals _ => none
  | condition c => some c.key

@[simp] theorem isNested_leaf (p : Predicate) : p.leaf.isNested = false := by
  cases p <;> rfl

end Predicate

namespace Builder

/-- The predicate of a triple; a disjunction and a triple without a path have none. -/
def predicate? (b : Builder) (t : Triple) : Option Predicate :=
  match t.fields with
  | [] => none
  | root :: _ =>
    match t.operator with
    | none => some (.equals (b.plainOperand root t.fields t.value))
    | some op => (b.condition? root t.value op).map .condition

/-- The alternatives that a disjunction adds. -/
def alternativeTrees (b : Builder) (t : Triple) : List Tree :=
  match t.fields with
  | [] => []
  | root :: _ => (b.alternatives root t.value).map fun v => .wrap t.fields (.equals v)

/-- A triple with a predicate has a path; the predicate is a bare operand if the triple has no
operator, and else the condition of its operator. -/
theorem predicate?_cases {b : Builder} {t : Triple} {p : Predicate} (h : b.predicate? t = some p) :
    ∃ root fs, t.fields = root :: fs ∧
      (t.operator = none ∧ p = .equals (b.plainOperand root t.fields t.value) ∨
        ∃ op c, t.operator = some op ∧ b.condition? root t.value op = some c ∧
          p = .condition c) := by
  rw [predicate?] at h
  cases hf : t.fields with
  | nil => simp [hf] at h
  | cons root fs =>
    refine ⟨root, fs, rfl, ?_⟩
    cases ho : t.operator with
    | none => exact Or.inl ⟨rfl, by simpa [hf, ho] using h.symm⟩
    | some op =>
      obtain ⟨c, hc, rfl⟩ : ∃ c, b.condition? root t.value op = some c ∧ .condition c = p := by
        simpa [hf, ho] using h
      exact Or.inr ⟨op, c, rfl, hc, rfl⟩

theorem build?_of_predicate? {b : Builder} {t : Triple} {p : Predicate}
    (h : b.predicate? t = some p) : b.build? t = some (.wrap t.fields p.leaf) := by
  obtain ⟨root, fs, hf, ⟨ho, rfl⟩ | ⟨op, c, ho, hc, rfl⟩⟩ := predicate?_cases h
  · rw [build?, hf, ho]
    rfl
  · simp [build?, hf, ho, hc, Predicate.leaf]

/-- Only a disjunction compiles to no condition. -/
theorem condition?_eq_none_iff {b : Builder} {root : String} {v : Json} {op : Operator} :
    b.condition? root v op = none ↔ op = .or := by
  cases op <;> simp [condition?]

theorem build?_of_or {b : Builder} {t : Triple} (hf : t.fields ≠ []) (ho : t.operator = some .or) :
    b.build? t = some (.wrap [Tree.orKey] (.or (b.alternativeTrees t))) := by
  rw [build?, alternativeTrees]
  cases hfs : t.fields with
  | nil => exact absurd hfs hf
  | cons root fs => simp [ho, condition?]

/-- Every triple with a path has a predicate or is a disjunction. -/
theorem exists_predicate? (b : Builder) {t : Triple} (hf : t.fields ≠ [])
    (ho : t.operator ≠ some .or) : ∃ p, b.predicate? t = some p := by
  rw [predicate?]
  cases hfs : t.fields with
  | nil => exact absurd hfs hf
  | cons root fs =>
    cases hop : t.operator with
    | none => exact ⟨_, rfl⟩
    | some op =>
      have hne : op ≠ .or := fun e => ho (by rw [hop, e])
      have hsome : b.condition? root t.value op ≠ none := fun e => hne (condition?_eq_none_iff.1 e)
      obtain ⟨c, hc⟩ := Option.ne_none_iff_exists'.1 hsome
      exact ⟨.condition c, by simp [hc]⟩

/-! ### Laying triples over one another -/

/-- Lays the tree of one triple over a tree; a triple without a path leaves it as it is. -/
def overlay (b : Builder) (tree : Tree) (t : Triple) : Tree :=
  match b.build? t with
  | some subtree => tree.merge subtree
  | none => tree

theorem overlay_of_predicate? {b : Builder} {t : Triple} {p : Predicate} (tree : Tree)
    (h : b.predicate? t = some p) : b.overlay tree t = tree.merge (.wrap t.fields p.leaf) := by
  rw [overlay, build?_of_predicate? h]

theorem overlay_of_or {b : Builder} {t : Triple} (tree : Tree) (hf : t.fields ≠ [])
    (ho : t.operator = some .or) :
    b.overlay tree t = tree.merge (.wrap [Tree.orKey] (.or (b.alternativeTrees t))) := by
  rw [overlay, build?_of_or hf ho]

theorem overlay_of_fields_eq_nil {b : Builder} {t : Triple} (tree : Tree) (hf : t.fields = []) :
    b.overlay tree t = tree := by
  rw [overlay, build?, hf]

end Builder

namespace Compiler

/-- The triples of the parameters that are not ignored, in order. -/
def flattened (c : Compiler) (params : Params) : List Triple :=
  (c.keyedTriples params).map Prod.snd

theorem mem_flattened {c : Compiler} {params : Params} {t : Triple}
    (h : t ∈ c.flattened params) : ∃ p ∈ params, t ∈ triples p.1 p.2 := by
  obtain ⟨kt, hkt, rfl⟩ := List.mem_map.1 h
  obtain ⟨p, hp, hmap⟩ := List.mem_flatMap.1 hkt
  obtain ⟨t, ht, rfl⟩ := List.mem_map.1 hmap
  exact ⟨p, (List.mem_filter.1 hp).1, ht⟩

theorem tree_foldl_add (c : Compiler) (ts : List (String × Triple)) (r : Compilation) :
    (ts.foldl (fun r p => c.add r p.1 p.2) r).tree = (ts.map Prod.snd).foldl c.overlay r.tree := by
  induction ts generalizing r with
  | nil => rfl
  | cons p ts ih =>
    have hadd : (c.add r p.1 p.2).tree = c.overlay r.tree p.2 := by
      rw [add, Builder.overlay]
      cases c.build? p.2 <;> rfl
    rw [List.foldl_cons, ih, hadd, List.map_cons, List.foldl_cons]

/-- A compiled tree is its triples laid over one another in turn, whatever the faults. -/
theorem compile_eq_foldl (c : Compiler) (params : Params) :
    c.compile params = (c.flattened params).foldl c.overlay .empty :=
  c.tree_foldl_add _ _

end Compiler

end Sieve.Filter
