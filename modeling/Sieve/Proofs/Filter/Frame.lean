import Mathlib
import Sieve.Proofs.Filter.Merging

/-!
# What one more filter changes

A filter laid over a tree writes at the end of its path and nowhere else. What it finds on the way
there may be of any kind: branches are kept and gone through, and anything else gives way to a
branch. So a path that parts ways with that of the filter leads where it led before, if only the
tree had no unsafe keys, which merging would drop.

At the end of the path the filter has the last word. Two lists of operands are joined, and all else
that stands there under the same key is replaced.

## Main definitions

* `Condition.laidOver` — a condition over one that may stand under its key

## Main results

* `Tree.getPath?_merge_wrap_self` — what stands at the end of a chain that was laid over a tree
* `Tree.getPath?_merge_wrap_of_apart` — what stands elsewhere
* `Builder.getPath?_merge_build?` — the same for the tree of a filter
-/

namespace Sieve.Filter

/-! ### A condition over another -/

namespace Condition

/-- The operands of a condition that has a list of them: of a membership test, and of a comparison
with a list. -/
def operands? : Condition → Option (List Operand)
  | member _ vs => some vs
  | compare _ (.list vs) => some vs
  | _ => none

/-- The condition with a list of other operands. -/
def withOperands : Condition → List Operand → Condition
  | member op _, vs => member op vs
  | compare op _, vs => compare op (.list vs)
  | c, _ => c

/-- The condition over one that may stand under its key: a list of operands is put behind another,
and in every other case the condition stands as it is. -/
def laidOver (old : Option Condition) (c : Condition) : Condition :=
  match old.bind operands?, c.operands? with
  | some us, some vs => c.withOperands (us ++ vs)
  | _, _ => c

variable {c d : Condition}

theorem eq_list_of_operands? {op : Comparison} {v : Operand} {vs : List Operand}
    (h : (compare op v).operands? = some vs) : v = .list vs := by
  cases v with
  | list ws => exact congrArg Operand.list (Option.some.inj h)
  | _ => cases h

/-- Of two conditions with lists of operands and with one key, both are the same test. -/
theorem combine_of_operands? {us vs : List Operand} (hkey : d.key = c.key)
    (hd : d.operands? = some us) (hc : c.operands? = some vs) :
    combine d c = c.withOperands (us ++ vs) := by
  cases d with
  | member op ws =>
    obtain rfl : ws = us := Option.some.inj hd
    cases c with
    | member op' ws' =>
      obtain rfl : ws' = vs := Option.some.inj hc
      obtain rfl : op = op' := Membership.name_injective hkey
      rfl
    | compare op' v => exact absurd hkey.symm (op'.name_ne_name op)
    | _ => cases hc
  | compare op u =>
    obtain rfl : u = .list us := eq_list_of_operands? hd
    cases c with
    | compare op' v =>
      obtain rfl : v = .list vs := eq_list_of_operands? hc
      obtain rfl : op = op' := Comparison.name_injective hkey
      rfl
    | member op' ws => exact absurd hkey (op.name_ne_name op')
    | _ => cases hc
  | _ => cases hd

theorem combine_of_operands?_eq_none (h : d.operands? = none ∨ c.operands? = none) :
    combine d c = c := by
  unfold combine
  split
  · rcases h with h | h <;> cases h
  · rcases h with h | h <;> cases h
  · rfl

/-- **What is under a key once a condition is added**, said through the operands. -/
theorem joined_eq_laidOver {old : Option Condition} (hold : ∀ d ∈ old, d.key = c.key) :
    joined old c = laidOver old c := by
  cases old with
  | none => rfl
  | some d =>
    have hkey : d.key = c.key := hold d rfl
    rw [joined, laidOver, Option.elim_some, Option.bind_some]
    split
    · next us vs hd hc => exact combine_of_operands? hkey hd hc
    · next h =>
      refine combine_of_operands?_eq_none ?_
      cases hd : d.operands? with
      | none => exact Or.inl rfl
      | some us =>
        cases hc : c.operands? with
        | none => exact Or.inr rfl
        | some vs => exact absurd hc (h us vs hd)

theorem key_eq_of_find? {cs : List Condition} {key : String} (h : find? cs key = some d) :
    d.key = key := by
  simpa using List.find?_some h

/-- The condition that is added is found under its key, over the one that was there; all others are
found as before. -/
theorem find?_add_eq_laidOver (cs : List Condition) (c : Condition) (key : String) :
    find? (add cs c) key =
      if key = c.key then some (laidOver (find? cs key) c) else find? cs key := by
  rw [find?_add]
  split
  · next hkey =>
    subst hkey
    rw [joined_eq_laidOver fun d hd => key_eq_of_find? hd]
  · rfl

end Condition

/-! ### A chain over a tree -/

namespace Tree

variable {t leaf : Tree} {fields path : List String}

theorem getPath?_empty (path : List String) :
    (empty.getPath? path).getD empty = empty := by
  cases path <;> rfl

theorem getPath?_cons_getD (t : Tree) (key : String) (path : List String) :
    (t.getPath? (key :: path)).getD empty =
      (((t.get? key).getD empty).getPath? path).getD empty := by
  rw [getPath?]
  cases t.get? key with
  | none => exact (getPath?_empty path).symm
  | some child => rfl

theorem getPath?_wrap (fields : List String) (leaf : Tree) :
    (wrap fields leaf).getPath? fields = some leaf := by
  induction fields with
  | nil => rfl
  | cons f fs ih =>
    have hget : (nested [(f, wrap fs leaf)]).get? f = some (wrap fs leaf) := if_pos rfl
    rw [wrap_cons, getPath?, hget, Option.bind_some, ih]

/-- **At the end of a chain** stands its leaf, laid over what stood there. -/
theorem getPath?_merge_wrap_self (hleaf : leaf.isNested = false)
    (hsafe : ∀ f ∈ fields, isUnsafeKey f = false) (t : Tree) :
    (t.merge (wrap fields leaf)).getPath? fields =
      some (((t.getPath? fields).getD empty).merge leaf) := by
  induction fields generalizing t with
  | nil => rfl
  | cons f fs ih =>
    obtain ⟨hf, hfs⟩ := List.forall_mem_cons.1 hsafe
    have hget : (t.merge (wrap (f :: fs) leaf)).get? f =
        some (((t.get? f).getD empty).merge (wrap fs leaf)) := by
      rw [get?_merge_wrap_cons hleaf, hf, if_neg Bool.false_ne_true, if_pos rfl]
    rw [getPath?, hget, Option.bind_some, ih hfs, getPath?_cons_getD]

/-- The tree has no unsafe key on any path. -/
def SafePaths (t : Tree) : Prop :=
  ∀ path, (t.getPath? path).isSome = true → ∀ key ∈ path, isUnsafeKey key = false

theorem safePaths_empty : empty.SafePaths := by
  rintro (_ | ⟨key, path⟩) h
  · simp
  · cases h

theorem SafePaths.getD_get? (h : t.SafePaths) (key : String) :
    ((t.get? key).getD empty).SafePaths := by
  cases hget : t.get? key with
  | none => exact safePaths_empty
  | some child =>
    intro path hpath k hk
    have hstep : t.getPath? (key :: path) = child.getPath? path := by
      rw [getPath?, hget, Option.bind_some]
    exact h (key :: path) (by rwa [hstep]) k (List.mem_cons_of_mem _ hk)

theorem safePaths_of_not_nested (ht : t.isNested = false) : t.SafePaths := by
  rintro (_ | ⟨key, path⟩) h
  · simp
  · cases t with
    | nested bs => cases ht
    | _ => cases h

theorem safePaths_nested {bs : List (String × Tree)}
    (h : ∀ p ∈ bs, isUnsafeKey p.1 = false ∧ p.2.SafePaths) : (nested bs).SafePaths := by
  rintro (_ | ⟨key, path⟩) hpath
  · simp
  · obtain ⟨s, hs⟩ := Option.isSome_iff_exists.1 hpath
    obtain ⟨child, hchild, hrest⟩ := Option.bind_eq_some_iff.1 hs
    obtain ⟨hkey, hsafe⟩ := h _ (Entries.mem_of_get? hchild)
    exact List.forall_mem_cons.2 ⟨hkey, hsafe path (by rw [hrest]; rfl)⟩

/-- Nothing stands under an unsafe key. -/
theorem SafePaths.get?_eq_none (h : t.SafePaths) {key : String} (hkey : isUnsafeKey key = true) :
    t.get? key = none := by
  rw [Option.eq_none_iff_forall_ne_some]
  intro child hget
  have hsome : (t.getPath? [key]).isSome = true := by rw [getPath?, hget]; rfl
  have hsafe := h [key] hsome key List.mem_cons_self
  rw [hkey] at hsafe
  cases hsafe

/-- **Elsewhere nothing changes.** -/
theorem getPath?_merge_wrap_of_apart (hleaf : leaf.isNested = false) (ht : t.SafePaths)
    (h : Apart path fields) : (t.merge (wrap fields leaf)).getPath? path = t.getPath? path := by
  induction fields generalizing t path with
  | nil => exact absurd h not_apart_nil
  | cons f fs ih =>
    obtain ⟨key, path, rfl⟩ := h.exists_eq_cons
    rw [getPath?, getPath?, get?_merge_wrap_cons hleaf]
    cases hkey : isUnsafeKey key with
    | true => rw [if_pos rfl, ht.get?_eq_none hkey]
    | false =>
      rw [if_neg Bool.false_ne_true]
      split
      · next heq =>
        subst heq
        have hapart := apart_cons_self.1 h
        obtain ⟨k, path, rfl⟩ := hapart.exists_eq_cons
        rw [Option.bind_some, ih (ht.getD_get? key) hapart]
        cases t.get? key <;> rfl
      · rfl

end Tree

/-! ### A filter over a tree -/

namespace Builder

variable {b : Builder} {t : Triple} {tree : Tree} {p : Predicate}

theorem predicate?_of_operator_eq_none (hp : b.predicate? t = some p) (h : t.operator = none) :
    ∃ v, p = .equals v := by
  obtain ⟨root, fs, -, ⟨-, hv⟩ | ⟨op, c, ho, -, -⟩⟩ := predicate?_cases hp
  · exact ⟨_, hv⟩
  · rw [h] at ho
    cases ho

theorem predicate?_of_operator_ne_none (hp : b.predicate? t = some p) (h : t.operator ≠ none) :
    ∃ c, p = .condition c := by
  obtain ⟨root, fs, -, ⟨ho, -⟩ | ⟨op, c, -, -, hc⟩⟩ := predicate?_cases hp
  · exact absurd ho h
  · exact ⟨c, hc⟩

/-- **A later filter takes effect and changes nothing else.** Take any tree without unsafe keys on
its paths, and any triple with a safe path that is no disjunction. Laid over the tree, its operand
stands at the end of its path, behind the list that may have stood there if it is a list itself; or
its condition stands there under its key, with its operands behind those of the condition that it
meets if both have a list of them, and among whatever other conditions there were. Every path that
parts ways with that of the triple leads where it led before. -/
theorem getPath?_merge_build? (htree : tree.SafePaths) (hpath : t.fields ≠ [])
    (hsafe : ∀ f ∈ t.fields, isUnsafeKey f = false) (hor : t.operator ≠ some .or) :
    ∃ subtree, b.build? t = some subtree ∧
      (t.operator = none → ∃ v, subtree.getPath? t.fields = some (.equals v) ∧
        (tree.merge subtree).getPath? t.fields = some (.equals
          (Tree.joinOperand ((tree.getPath? t.fields).bind Tree.operand?) v))) ∧
      (t.operator ≠ none → ∃ c cs, subtree.getPath? t.fields = some (.conditions [c]) ∧
        (tree.merge subtree).getPath? t.fields = some (.conditions cs) ∧
        ∀ key, Condition.find? cs key =
          let old := (tree.getPath? t.fields).bind fun s => Condition.find? s.conditionList key
          if key = c.key then some (Condition.laidOver old c) else old) ∧
      ∀ path, Apart path t.fields →
        (tree.merge subtree).getPath? path = tree.getPath? path := by
  obtain ⟨p, hp⟩ := b.exists_predicate? hpath hor
  have hself := Tree.getPath?_merge_wrap_self p.isNested_leaf hsafe tree
  have hleaf := Tree.getPath?_wrap t.fields p.leaf
  refine ⟨_, build?_of_predicate? hp, fun hnone => ?_, fun hsome => ?_, fun path hapart => ?_⟩
  · obtain ⟨v, rfl⟩ := predicate?_of_operator_eq_none hp hnone
    refine ⟨v, hleaf, ?_⟩
    rw [hself, Predicate.leaf, Tree.merge_equals]
    cases tree.getPath? t.fields <;> rfl
  · obtain ⟨c, rfl⟩ := predicate?_of_operator_ne_none hp hsome
    refine ⟨c, _, hleaf, hself.trans (congrArg some (Tree.merge_condition _ c)), fun key => ?_⟩
    rw [Condition.find?_add_eq_laidOver]
    cases tree.getPath? t.fields <;> rfl
  · exact Tree.getPath?_merge_wrap_of_apart p.isNested_leaf htree hapart

/-- Authors of some age and name. -/
def authorTree : Tree :=
  .nested [("author", .nested [("age", .conditions [.compare .gt (.int 5),
    .member .isIn [.string "7"]]), ("name", .equals (.string "Ada"))])]

theorem getPath?_merge_build?_authorAge :
    ∃ subtree, (default : Builder).build? ⟨["author", "age"], some (.member .isIn),
        .string "8, 9"⟩ = some subtree ∧
      (∃ cs, (authorTree.merge subtree).getPath? ["author", "age"] = some (.conditions cs) ∧
        Condition.find? cs "in" =
          some (.member .isIn [.string "7", .string "8", .string "9"]) ∧
        Condition.find? cs "gt" = some (.compare .gt (.int 5))) ∧
      (authorTree.merge subtree).getPath? ["author", "name"] =
        some (.equals (.string "Ada")) := by
  have htree : authorTree.SafePaths := by
    refine Tree.safePaths_nested (List.forall_mem_singleton.2 ⟨by decide,
      Tree.safePaths_nested (List.forall_mem_cons.2 ⟨⟨by decide, ?_⟩,
        List.forall_mem_singleton.2 ⟨by decide, ?_⟩⟩)⟩)
    · exact Tree.safePaths_of_not_nested rfl
    · exact Tree.safePaths_of_not_nested rfl
  obtain ⟨subtree, hbuild, -, hcond, hframe⟩ := getPath?_merge_build? (b := default)
    (t := ⟨["author", "age"], some (.member .isIn), .string "8, 9"⟩) htree (by decide) (by decide)
    (by decide)
  obtain ⟨c, cs, hc, hcs, hfind⟩ := hcond (by decide)
  have hbuilt : (default : Builder).build? ⟨["author", "age"], some (.member .isIn),
      .string "8, 9"⟩ = some (.wrap ["author", "age"]
        (.conditions [.member .isIn [.string "8", .string "9"]])) := by cbv
  obtain rfl := Option.some.inj (hbuild.symm.trans hbuilt)
  obtain rfl : .member .isIn [.string "8", .string "9"] = c := by
    simpa using (Tree.getPath?_wrap _ _).symm.trans hc
  refine ⟨_, hbuilt, ⟨cs, hcs, (hfind "in").trans (by cbv), (hfind "gt").trans (by cbv)⟩, ?_⟩
  exact hframe ["author", "name"] (by unfold Apart; decide)

end Builder

end Sieve.Filter
