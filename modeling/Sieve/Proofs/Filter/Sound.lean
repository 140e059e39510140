import Sieve.Proofs.Filter.Flattening
import Sieve.Proofs.Filter.Merging

/-!
# Sound trees

Alternatives stand under the reserved key of the root and nowhere else, and each of them is a chain.
Everywhere else in a compiled filter there are branches, bare operands and conditions, and no two
conditions of one field occupy the same key.

This is an invariant of merging, not of the compiler: it is shown for the tree of one triple, and
merging any two trees that have it gives a tree that has it again. The distinction that makes it one
is where alternatives may stand. Below the root nothing is ever laid over alternatives, so one
predicate, `Tree.Sound`, describes all that can stand under a field, and only the root needs a
second one.

What operands must satisfy is left open. It can be anything that joining two lists keeps, or nothing
at all.

## Main definitions

* `Tree.Chain`, `Tree.Sound`, `Tree.Rooted` — alternatives, what stands under a field, whole trees
* `Builder.Feeds` — what is known of the operands that are made of a value

## Main results

* `Tree.Sound.merge`, `Tree.Rooted.merge` — merging keeps the invariant
* `Builder.rooted_build?`, `Compiler.rooted_compile` — one triple, and all parameters
-/

namespace Sieve.Filter

/-! ### Operands -/

namespace Operand

/-- An object that is carried along as it is. -/
def isObject : Operand → Bool
  | object _ => true
  | _ => false

/-- An operand without parts. -/
def isScalar : Operand → Bool
  | list _ => false
  | object _ => false
  | _ => true

/-- What the operands of two lists have, those of the joined list have. -/
def JoinClosed (P : Operand → Prop) : Prop :=
  ∀ vs ws, P (.list vs) → P (.list ws) → P (.list (vs ++ ws))

theorem joinClosed_true : JoinClosed fun _ => True := fun _ _ _ _ => trivial

theorem isObject_of_isScalar {v : Operand} (h : v.isScalar = true) : v.isObject = false := by
  cases v with
  | object es => cases h
  | _ => rfl

theorem isObject_ofJson (v : Json) : (ofJson v).isObject = v.isObject := by
  cases v with
  | int i => rw [ofJson]; split <;> rfl
  | _ => rw [ofJson]; rfl

end Operand

namespace Classification

/-- Text is never read as a list or an object. -/
theorem isScalar_coerceText (c : Classification) (field s : String) :
    (c.coerceText field s).isScalar = true := by
  rw [coerceText]
  cases c.category field with
  | date =>
    rw [convert]
    cases Instant.read? s with
    | none => rfl
    | some t => rfl
  | boolean => rfl
  | numeric =>
    rw [convert, Operand.number?]
    split
    · rfl
    · cases (Decimal.float? (Text.trimChars s.toList)).filter Float.isFinite with
      | none => rfl
      | some x => rfl
  | other => rfl

theorem isObject_coerce (c : Classification) (field : String) (v : Json) :
    (c.coerce field v).isObject = v.isObject := by
  cases v with
  | string s => exact Operand.isObject_of_isScalar (c.isScalar_coerceText field s)
  | _ => exact Operand.isObject_ofJson _

end Classification

/-! ### The invariant -/

/-- What is known of a condition on a field: its operands satisfy `P`, a comparison is not with an
object, and a substring test has a mode exactly if the provider has modes. -/
def Builder.Admits (b : Builder) (P : Operand → Prop) : Condition → Prop
  | .compare _ v => v.isObject = false ∧ P v
  | .member _ vs => ∀ v ∈ vs, P v
  | .contains _ mode => mode.isSome = b.provider.hasCaseModes
  | .unset => True

theorem Builder.Admits.combine {b : Builder} {P : Operand → Prop} (hP : Operand.JoinClosed P)
    {c d : Condition} (hd : b.Admits P d) (hc : b.Admits P c) :
    b.Admits P (Condition.combine d c) := by
  unfold Condition.combine
  split
  · exact List.forall_mem_append.2 ⟨hd, hc⟩
  · exact ⟨rfl, hP _ _ hd.2 hc.2⟩
  · exact hc

namespace Tree

/-- A chain of branches with at most one child each. It ends in a bare operand or in the empty
branch. -/
inductive Chain (P : Operand → Prop) : Tree → Prop where
  | equals {v : Operand} (hv : P v) : Chain P (.equals v)
  | empty : Chain P (.nested [])
  | nested (key : String) {t : Tree} (ht : Chain P t) : Chain P (.nested [(key, t)])

/-- What can stand under a field: branches, conditions and bare operands, but no alternatives. -/
inductive Sound (b : Builder) (P : Operand → Prop) : Tree → Prop where
  | equals {v : Operand} (hobject : v.isObject = false) (hv : P v) : Sound b P (.equals v)
  | conditions {cs : List Condition} (hne : cs ≠ []) (hkeys : (cs.map Condition.key).Nodup)
      (hcs : ∀ c ∈ cs, b.Admits P c) : Sound b P (.conditions cs)
  | nested {bs : List (String × Tree)} (hkeys : (Entries.keys bs).Nodup)
      (hbs : ∀ p ∈ bs, Sound b P p.2) : Sound b P (.nested bs)

/-- What can stand under a key of the root: alternatives too, under the reserved key. -/
def Stands (b : Builder) (P : Operand → Prop) (key : String) (t : Tree) : Prop :=
  Sound b P t ∨ key = orKey ∧ ∃ ts, t = .or ts ∧ ∀ a ∈ ts, Chain P a

/-- A whole tree. -/
inductive Rooted (b : Builder) (P : Operand → Prop) : Tree → Prop where
  | nested {bs : List (String × Tree)} (hkeys : (Entries.keys bs).Nodup)
      (hbs : ∀ p ∈ bs, Stands b P p.1 p.2) : Rooted b P (.nested bs)

variable {b : Builder} {P : Operand → Prop} {t s : Tree} {key : String}

/-! ### Merging keeps it -/

theorem Chain.sanitize (h : Chain P t) : Chain P t.sanitize := by
  induction h with
  | equals hv => exact .equals hv
  | empty => exact .empty
  | nested key _ ih =>
    rw [Tree.sanitize, sanitizeBranches]
    split
    · exact .empty
    · exact .nested key ih

theorem Sound.sanitize (h : Sound b P t) : Sound b P t.sanitize := by
  induction h with
  | equals hobject hv => exact .equals hobject hv
  | conditions hne hkeys hcs => exact .conditions hne hkeys hcs
  | nested hkeys _ ih =>
    rw [Tree.sanitize]
    refine .nested ?_ fun p hp => ?_
    · rw [keys_sanitizeBranches]
      exact Entries.nodup_keys_safeEntries hkeys
    · obtain ⟨t, ht, heq⟩ := mem_sanitizeBranches hp
      exact heq ▸ ih _ ht

/-- Conditions that are put among others are put there one at a time. -/
theorem Sound.addAll (hP : Operand.JoinClosed P) {ds cs : List Condition}
    (hds : Sound b P (.conditions ds)) (hcs : ∀ c ∈ cs, b.Admits P c) :
    Sound b P (.conditions (Condition.addAll ds cs)) := by
  rw [Condition.addAll]
  induction cs generalizing ds with
  | nil => exact hds
  | cons c cs ih =>
    obtain ⟨hc, hcs⟩ := List.forall_mem_cons.1 hcs
    cases hds with
    | conditions _ hkeys hall =>
      exact ih (.conditions (Condition.add_ne_nil ds c) (Condition.nodup_keys_add hkeys)
        (Condition.forall_mem_add hall hc fun d hd _ => (hall d hd).combine hP hc)) hcs

theorem Sound.merge_equals (hP : Operand.JoinClosed P) (ht : Sound b P t) {v : Operand}
    (hobject : v.isObject = false) (hv : P v) : Sound b P (t.merge (.equals v)) := by
  rw [Tree.merge_equals]
  unfold joinOperand
  split
  · next hvs =>
    obtain rfl := operand?_eq_some_iff.1 hvs
    cases ht with
    | equals _ hvs => exact .equals rfl (hP _ _ hvs hv)
  · exact .equals hobject hv

/-- **Merging keeps what stands under a field sound.** -/
theorem Sound.merge (hP : Operand.JoinClosed P) (ht : Sound b P t) (hs : Sound b P s) :
    Sound b P (t.merge s) := by
  -- On the source, for every target: only branches over branches go any deeper.
  induction hs generalizing t with
  | equals hobject hv => exact ht.merge_equals hP hobject hv
  | conditions hne hkeys hcs =>
    cases ht with
    | conditions hne' hkeys' hcs' =>
      rw [Tree.merge]
      exact .addAll hP (.conditions hne' hkeys' hcs') hcs
    | equals _ _ => exact .conditions hne hkeys hcs
    | nested _ _ => exact .conditions hne hkeys hcs
  | nested hkeys hbs ih =>
    cases ht with
    | equals _ _ =>
      rw [merge_nested_of_not_nested rfl]
      exact (Sound.nested hkeys hbs).sanitize
    | conditions _ _ _ =>
      rw [merge_nested_of_not_nested rfl]
      exact (Sound.nested hkeys hbs).sanitize
    | nested hkeys' hbs' =>
      rw [merge_nested_nested]
      refine .nested (nodup_keys_mergeBranches (Entries.nodup_keys_safeEntries hkeys')) ?_
      refine forall_mem_mergeBranches (P := fun _ t => Sound b P t)
        (fun p hp => hbs' p (Entries.mem_safeEntries.1 hp).1) fun p hp old hold => ?_
      cases old with
      | none => exact (hbs p hp).sanitize
      | some old => exact ih p hp (hold old rfl)

/-- Alternatives give way to what stands under a field. -/
theorem Sound.merge_or (hs : Sound b P s) (ts : List Tree) : Sound b P ((or ts).merge s) := by
  cases hs with
  | equals hobject hv => exact .equals hobject hv
  | conditions hne hkeys hcs => exact .conditions hne hkeys hcs
  | nested hkeys hbs =>
    rw [merge_nested_of_not_nested rfl]
    exact (Sound.nested hkeys hbs).sanitize

/-- What stands under a field gives way to alternatives. -/
theorem Sound.or_merge (ht : Sound b P t) (ss : List Tree) :
    t.merge (or ss) = (or ss).sanitize := by
  cases ht <;> rfl

theorem Stands.sanitize (h : Stands b P key t) : Stands b P key t.sanitize := by
  rcases h with h | ⟨hkey, ts, rfl, hts⟩
  · exact .inl h.sanitize
  · rw [Tree.sanitize, sanitizeList_eq_map]
    exact .inr ⟨hkey, _, rfl, List.forall_mem_map.2 fun a ha => (hts a ha).sanitize⟩

theorem Stands.merge (hP : Operand.JoinClosed P) (ht : Stands b P key t)
    (hs : Stands b P key s) : Stands b P key (t.merge s) := by
  rcases hs with hs | ⟨hkey, ss, rfl, hss⟩
  · rcases ht with ht | ⟨-, ts, rfl, -⟩
    · exact .inl (ht.merge hP hs)
    · exact .inl (hs.merge_or ts)
  · rcases ht with ht | ⟨-, ts, rfl, hts⟩
    · rw [ht.or_merge]
      exact Stands.sanitize (.inr ⟨hkey, ss, rfl, hss⟩)
    · rw [Tree.merge]
      exact .inr ⟨hkey, _, rfl, List.forall_mem_append.2 ⟨hts, hss⟩⟩

/-- **Merging keeps a whole tree as it should be.** -/
theorem Rooted.merge (hP : Operand.JoinClosed P) (ht : Rooted b P t) (hs : Rooted b P s) :
    Rooted b P (t.merge s) := by
  cases ht with
  | nested hkeys hbs =>
    cases hs with
    | nested _ hcs =>
      rw [merge_nested_nested]
      refine .nested (nodup_keys_mergeBranches (Entries.nodup_keys_safeEntries hkeys)) ?_
      refine forall_mem_mergeBranches (fun p hp => hbs p (Entries.mem_safeEntries.1 hp).1)
        fun p hp old hold => ?_
      cases old with
      | none => exact (hcs p hp).sanitize
      | some old => exact (hold old rfl).merge hP (hcs p hp)

theorem rooted_empty : Rooted b P .empty := .nested .nil (by simp)

/-! ### The tree of one triple -/

theorem chain_wrap (fields : List String) {v : Operand} (hv : P v) :
    Chain P (wrap fields (.equals v)) := by
  induction fields with
  | nil => exact .equals hv
  | cons f fs ih => exact .nested f ih

theorem Sound.wrap (fields : List String) (ht : Sound b P t) : Sound b P (wrap fields t) := by
  induction fields with
  | nil => exact ht
  | cons f fs ih => exact .nested (by simp) (List.forall_mem_singleton.2 ih)

theorem rooted_singleton (h : Stands b P key t) : Rooted b P (.nested [(key, t)]) :=
  .nested (by simp) (List.forall_mem_singleton.2 h)

end Tree

namespace Builder

variable {b : Builder} {P : Operand → Prop}

/-- Every operand that is made of the value satisfies `P`. -/
structure Feeds (b : Builder) (P : Operand → Prop) (v : Json) : Prop where
  plain : P (.ofJson v)
  coerced : ∀ root, P (b.classification.coerce root v)
  members : ∀ root, ∀ u ∈ b.operandList root v, P u
  alternatives : ∀ root, ∀ u ∈ b.alternatives root v, P u
  null : P .null
  blank : P (.string "")

theorem feeds_true (v : Json) : b.Feeds (fun _ => True) v where
  plain := trivial
  coerced _ := trivial
  members _ _ _ := trivial
  alternatives _ _ _ := trivial
  null := trivial
  blank := trivial

theorem admits_condition? {root : String} {v : Json} (hobject : v.isObject = false)
    (hv : b.Feeds P v) {op : Operator} {c : Condition} (h : b.condition? root v op = some c) :
    b.Admits P c := by
  cases op with
  | compare op =>
    obtain rfl := Option.some.inj h
    exact ⟨by rw [Classification.isObject_coerce, hobject], hv.coerced root⟩
  | member op =>
    obtain rfl := Option.some.inj h
    exact hv.members root
  | contains mode =>
    obtain rfl := Option.some.inj h
    show (b.mode? mode).isSome = b.provider.hasCaseModes
    rw [mode?]
    cases b.provider.hasCaseModes <;> rfl
  | isNull =>
    obtain rfl := Option.some.inj h
    split
    · exact ⟨rfl, hv.null⟩
    · exact trivial
  | isEmpty =>
    obtain rfl := Option.some.inj h
    split
    · exact ⟨rfl, hv.blank⟩
    · exact trivial
  | or => cases h

theorem isObject_plainOperand (b : Builder) (root : String) (fields : List String) (v : Json) :
    (b.plainOperand root fields v).isObject = v.isObject := by
  rw [plainOperand]
  split
  · exact Operand.isObject_ofJson v
  · exact b.classification.isObject_coerce root v

theorem Feeds.plainOperand {v : Json} (h : b.Feeds P v) (root : String) (fields : List String) :
    P (b.plainOperand root fields v) := by
  rw [Builder.plainOperand]
  split
  · exact h.plain
  · exact h.coerced root

/-- The leaf of a triple with a predicate is sound. -/
theorem sound_leaf {t : Triple} (hobject : t.value.isObject = false) (hv : b.Feeds P t.value)
    {p : Predicate} (hp : b.predicate? t = some p) : Tree.Sound b P p.leaf := by
  obtain ⟨root, fs, -, ⟨-, rfl⟩ | ⟨op, c, -, hc, rfl⟩⟩ := predicate?_cases hp
  · exact .equals (by rw [isObject_plainOperand, hobject]) (hv.plainOperand root t.fields)
  · refine .conditions (by simp) (by simp) ?_
    simpa using admits_condition? hobject hv hc

/-- **The tree of one triple.** -/
theorem rooted_build? {t : Triple} (hobject : t.value.isObject = false) (hv : b.Feeds P t.value)
    {tree : Tree} (h : b.build? t = some tree) : Tree.Rooted b P tree := by
  cases hfs : t.fields with
  | nil => simp [build?, hfs] at h
  | cons root fs =>
    have hf : t.fields ≠ [] := by simp [hfs]
    by_cases ho : t.operator = some .or
    · rw [b.build?_of_or hf ho, alternativeTrees, hfs] at h
      obtain rfl := Option.some.inj h
      refine Tree.rooted_singleton (.inr ⟨rfl, _, rfl, List.forall_mem_map.2 fun u hu => ?_⟩)
      exact Tree.chain_wrap _ (hv.alternatives root u hu)
    · obtain ⟨p, hp⟩ := b.exists_predicate? hf ho
      rw [build?_of_predicate? hp, hfs] at h
      obtain rfl := Option.some.inj h
      exact Tree.rooted_singleton (.inl ((sound_leaf hobject hv hp).wrap fs))

theorem rooted_foldl_overlay (hP : Operand.JoinClosed P) {ts : List Triple}
    (hts : ∀ t ∈ ts, t.value.isObject = false ∧ b.Feeds P t.value) {tree : Tree}
    (htree : Tree.Rooted b P tree) : Tree.Rooted b P (ts.foldl b.overlay tree) := by
  induction ts generalizing tree with
  | nil => exact htree
  | cons t ts ih =>
    obtain ⟨⟨hobject, hv⟩, hts⟩ := List.forall_mem_cons.1 hts
    refine ih hts ?_
    rw [overlay]
    cases hbuild : b.build? t with
    | none => exact htree
    | some subtree => exact htree.merge hP (rooted_build? hobject hv hbuild)

end Builder

namespace Compiler

variable {c : Compiler} {params : Params} {P : Operand → Prop}

/-- The value of a triple is a leaf of a parameter. -/
theorem exists_leaf_of_mem_flattened {t : Triple} (h : t ∈ c.flattened params) :
    ∃ p ∈ params, ∃ leaf ∈ p.2.leaves, leaf.2 = t.value := by
  obtain ⟨p, hp, ht⟩ := mem_flattened h
  rw [triples_eq_map_leaves] at ht
  obtain ⟨leaf, hleaf, rfl⟩ := List.mem_map.1 ht
  exact ⟨p, hp, leaf, hleaf, rfl⟩

/-- **The tree of all parameters.** -/
theorem rooted_compile (hP : Operand.JoinClosed P)
    (h : ∀ p ∈ params, ∀ leaf ∈ p.2.leaves, c.Feeds P leaf.2) :
    Tree.Rooted c.toBuilder P (c.compile params) := by
  rw [compile_eq_foldl]
  refine Builder.rooted_foldl_overlay hP (fun t ht => ?_) Tree.rooted_empty
  obtain ⟨p, hp, leaf, hleaf, hvalue⟩ := exists_leaf_of_mem_flattened ht
  rw [← hvalue]
  exact ⟨Json.isObject_of_mem_leaves p.2 leaf hleaf, h p hp leaf hleaf⟩

end Compiler

end Sieve.Filter
