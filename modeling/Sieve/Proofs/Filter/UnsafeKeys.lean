import Mathlib
import Sieve.Proofs.Filter.Flattening
import Sieve.Proofs.Filter.Overlay

/-!
# Unsafe keys in compiled filters

Merging drops unsafe keys from the branches that it walks through and from the subtrees that it
carries over whole. Alternatives that join others are the one thing it does not look into: they are
appended as they come.

So an unsafe key gets into a compiled filter in exactly one way. A disjunction puts its alternatives
under the reserved key, and a later disjunction, while they are still there, adds alternatives whose
path has an unsafe field. What a first disjunction brings is cleaned, and a triple that puts
anything else under the reserved key takes all alternatives away.

## Main definitions

* `Tree.Safe` — the document of a tree has no unsafe key
* `openDisjunctions` — the disjunctions whose alternatives are still there
* `Purity` — what is known of a tree after some triples

## Main results

* `Tree.Safe.merge_wrap` — merging a chain keeps a tree safe if its leaf does
* `Purity.overlay`, `purity_foldl` — one triple, and a run of them
* `isSafe_compile_ofQueryString_iff` — when a compiled query string has no unsafe key
-/

namespace Sieve.Filter

/-! ### Safe trees -/

/-- No object in the document of the tree has an unsafe key. -/
def Tree.Safe (t : Tree) : Prop := t.toJson.isSafe = true

/-- What the condition adds to an object is safe. -/
def Condition.Safe (c : Condition) : Prop :=
  ∀ e ∈ c.entries, isUnsafeKey e.1 = false ∧ e.2.isSafe = true

/-- The document of the operand has no unsafe key. -/
def Operand.Safe (v : Operand) : Prop := v.toJson.isSafe = true

theorem Operand.safe_list_iff {vs : List Operand} : (list vs).Safe ↔ ∀ v ∈ vs, v.Safe := by
  rw [Safe, toJson, Json.isSafe_array, toJsonList_eq_map]
  simp [Safe]

namespace Condition

theorem safe_compare_iff {op : Comparison} {v : Operand} : (compare op v).Safe ↔ v.Safe := by
  have hname : isUnsafeKey op.name = false := by cases op <;> decide
  simp [Safe, entries, Operand.Safe, hname]

theorem safe_member_iff {op : Membership} {vs : List Operand} :
    (member op vs).Safe ↔ ∀ v ∈ vs, v.Safe := by
  have hname : isUnsafeKey op.name = false := by cases op <;> decide
  simp [Safe, entries, hname, Json.isSafe_array, Operand.toJsonList_eq_map, Operand.Safe]

theorem safe_contains (s : String) (m : Option Mode) : (contains s m).Safe := by
  cases m with
  | none => simp [Safe, entries, Json.isSafe, Json.allKeys]; decide
  | some m => simp [Safe, entries, Json.isSafe, Json.allKeys]; decide

theorem safe_unset : unset.Safe := by simp [Safe, entries]

theorem Safe.combine {c d : Condition} (hc : c.Safe) (hd : d.Safe) : (combine c d).Safe := by
  unfold Condition.combine
  split
  · rw [safe_member_iff] at *
    intro v hv
    exact (List.mem_append.1 hv).elim (hc v) (hd v)
  · rw [safe_compare_iff, Operand.safe_list_iff] at *
    intro v hv
    exact (List.mem_append.1 hv).elim (hc v) (hd v)
  · exact hd

theorem Safe.of_mem_add {cs : List Condition} {c : Condition} (hcs : ∀ d ∈ cs, d.Safe)
    (hc : c.Safe) {d : Condition} (hd : d ∈ add cs c) : d.Safe := by
  induction cs with
  | nil =>
    obtain rfl : d = c := by simpa [add] using hd
    exact hc
  | cons e es ih =>
    obtain ⟨he, hes⟩ := List.forall_mem_cons.1 hcs
    rw [add] at hd
    split at hd
    · rcases List.mem_cons.1 hd with rfl | hd
      · exact he.combine hc
      · exact hes d hd
    · rcases List.mem_cons.1 hd with rfl | hd
      · exact he
      · exact ih hes hd

end Condition

namespace Tree

theorem safe_equals_iff {v : Operand} : (equals v).Safe ↔ v.Safe := by
  rw [Safe, toJson_equals, Operand.Safe]

theorem safe_conditions_iff {cs : List Condition} : (conditions cs).Safe ↔ ∀ c ∈ cs, c.Safe := by
  rw [Safe, toJson_conditions, Json.isSafe_object]
  simp only [List.mem_flatMap, Condition.Safe]
  exact ⟨fun h c hc e he => h e ⟨c, hc, he⟩, fun h e ⟨c, hc, he⟩ => h c hc e he⟩

theorem safe_or_iff {ts : List Tree} : (or ts).Safe ↔ ∀ t ∈ ts, t.Safe := by
  rw [Safe, toJson_or, Json.isSafe_array]
  simp [Safe]

theorem safe_nested_iff {bs : List (String × Tree)} :
    (nested bs).Safe ↔ ∀ p ∈ bs, isUnsafeKey p.1 = false ∧ p.2.Safe := by
  rw [Safe, toJson_nested, Json.isSafe_object, List.forall_mem_map]
  rfl

theorem safe_empty : empty.Safe := by simp [empty, safe_nested_iff]

theorem Safe.branches {t : Tree} (h : t.Safe) :
    ∀ p ∈ t.branches, isUnsafeKey p.1 = false ∧ p.2.Safe := by
  cases t with
  | nested bs => exact safe_nested_iff.1 h
  | equals v => simp [Tree.branches]
  | conditions cs => simp [Tree.branches]
  | or ts => simp [Tree.branches]

theorem Safe.getD_get? {t : Tree} (h : t.Safe) (key : String) : ((t.get? key).getD empty).Safe := by
  cases hget : t.get? key with
  | none => exact safe_empty
  | some child =>
    rw [← get?_branches] at hget
    exact (h.branches _ (Entries.mem_of_get? hget)).2

/-- A chain is safe exactly if its fields and its leaf are. -/
theorem safe_wrap_iff {fields : List String} {leaf : Tree} :
    (wrap fields leaf).Safe ↔ (∀ f ∈ fields, isUnsafeKey f = false) ∧ leaf.Safe := by
  induction fields with
  | nil => simp
  | cons f fs ih =>
    rw [wrap_cons, safe_nested_iff, List.forall_mem_cons]
    simp [ih, and_assoc]

/-! ### Merging a chain -/

theorem safe_joinOperand {o : Option Operand} {v : Operand} (ho : ∀ u ∈ o, u.Safe)
    (hv : v.Safe) : (joinOperand o v).Safe := by
  unfold joinOperand
  split
  · next vs ws =>
    have hvs := Operand.safe_list_iff.1 (ho _ rfl)
    rw [Operand.safe_list_iff] at hv ⊢
    intro w hw
    exact (List.mem_append.1 hw).elim (hvs w) (hv w)
  · exact hv

theorem Safe.merge_leaf {t : Tree} (ht : t.Safe) {p : Predicate} (hp : p.leaf.Safe) :
    (t.merge p.leaf).Safe := by
  cases p with
  | equals v =>
    rw [Predicate.leaf, merge_equals, safe_equals_iff]
    refine safe_joinOperand (fun u hu => ?_) (safe_equals_iff.1 hp)
    obtain rfl : t = equals u := operand?_eq_some_iff.1 hu
    exact safe_equals_iff.1 ht
  | condition c =>
    rw [Predicate.leaf, merge_condition, safe_conditions_iff]
    have hcs : ∀ d ∈ t.conditionList, d.Safe := by
      intro d hd
      rw [eq_conditions_of_mem hd] at ht
      exact safe_conditions_iff.1 ht d hd
    exact fun d hd => Condition.Safe.of_mem_add hcs (by simpa using safe_conditions_iff.1 hp) hd

/-- **Merging a chain keeps a tree safe**, whatever the fields of the chain. -/
theorem Safe.merge_wrap {t : Tree} (ht : t.Safe) {p : Predicate} (hp : p.leaf.Safe)
    (fields : List String) : (t.merge (wrap fields p.leaf)).Safe := by
  induction fields generalizing t with
  | nil => exact ht.merge_leaf hp
  | cons f fs ih =>
    rw [merge_wrap_cons p.isNested_leaf, safe_nested_iff]
    intro q hq
    split at hq
    · exact ht.branches q (Entries.mem_safeEntries.1 hq).1
    · next hf =>
      rcases Entries.eq_or_mem_of_mem_insert hq with rfl | hq
      · exact ⟨by simpa using hf, ih (ht.getD_get? f)⟩
      · exact ht.branches q (Entries.mem_safeEntries.1 hq).1

/-- The tree holds alternatives. -/
def isOr : Tree → Bool
  | or _ => true
  | _ => false

theorem isOr_merge_wrap (t : Tree) (p : Predicate) (fields : List String) :
    (t.merge (wrap fields p.leaf)).isOr = false := by
  cases fields with
  | nil =>
    cases p with
    | equals v => rw [wrap_nil, Predicate.leaf, merge_equals]; rfl
    | condition c => rw [wrap_nil, Predicate.leaf, merge_condition]; rfl
  | cons f fs => rw [merge_wrap_cons p.isNested_leaf]; rfl

/-- Alternatives give way to a chain: nothing of them is left. -/
theorem merge_or_wrap (ts : List Tree) (p : Predicate) (fields : List String) :
    (or ts).merge (wrap fields p.leaf) = empty.merge (wrap fields p.leaf) := by
  cases fields with
  | nil => cases p <;> rfl
  | cons f fs =>
    rw [merge_wrap_cons p.isNested_leaf, merge_wrap_cons p.isNested_leaf]
    rfl

end Tree

/-! ### Parameters of a query string

They are texts and lists of texts, so no object comes in through a value: whatever is unsafe comes
in through a path. -/

/-- The value is a text, or a list of texts that is not empty. -/
inductive Textual : Json → Prop where
  | text (s : String) : Textual (.string s)
  | texts (s : String) (ss : List String) : Textual (.array ((s :: ss).map .string))

theorem Textual.collect {o : Option Json} (ho : ∀ v ∈ o, Textual v) (s : String) :
    Textual (Params.collect o s) := by
  cases o with
  | none => exact .text s
  | some v =>
    cases ho v rfl with
    | text r => exact .texts r [s]
    | texts r rs =>
      have happend : (r :: rs).map Json.string ++ [.string s] = (r :: (rs ++ [s])).map .string := by
        simp
      rw [Params.collect, happend]
      exact .texts r (rs ++ [s])

theorem textual_ofPairs (pairs : List (String × String)) {p : String × Json}
    (h : p ∈ Params.ofPairs pairs) : Textual p.2 := by
  induction pairs using List.reverseRecOn generalizing p with
  | nil => simp [Params.ofPairs] at h
  | append_singleton pairs q ih =>
    rw [Params.ofPairs, List.foldl_append] at h
    rcases Entries.eq_or_mem_of_mem_insert h with rfl | h
    · exact Textual.collect (fun v hv => ih (Entries.mem_of_get? hv)) q.2
    · exact ih h

theorem Textual.isObject_eq_false {v : Json} (hv : Textual v) : v.isObject = false := by
  cases hv <;> rfl

theorem Triple.fields_ne_nil_of_operator {path : List String} {v : Json} {op : Operator}
    (h : (Triple.ofPath path v).operator = some op) : (Triple.ofPath path v).fields ≠ [] := by
  simp only [ofPath, splitOperator] at h ⊢
  split at h
  · simp at h
  · split at h
    · simp at h
    · next hne => simp [hne]

theorem Operand.safe_string (s : String) : (string s).Safe := by
  simp [Safe, toJson, Json.isSafe, Json.allKeys]

theorem Classification.safe_coerceText (c : Classification) (field s : String) :
    (c.coerceText field s).Safe := by
  rw [coerceText]
  cases c.category field with
  | date =>
    rw [convert]
    cases Instant.read? s with
    | none => exact Operand.safe_string s
    | some t => simp [Operand.Safe, Operand.toJson, Json.isSafe, Json.allKeys]
  | boolean => simp [convert, Operand.Safe, Operand.toJson, Json.isSafe, Json.allKeys]
  | numeric =>
    rw [convert, Operand.number?]
    split
    · simp [Operand.Safe, Operand.toJson, Json.isSafe, Json.allKeys]
    · cases hx : (Decimal.float? (Text.trimChars s.toList)).filter Float.isFinite with
      | none => exact Operand.safe_string s
      | some x =>
        rw [Option.map_some, Option.getD_some, Operand.Safe, Operand.toJson]
        split <;> rfl
  | other => exact Operand.safe_string s

theorem Textual.safe_ofJson {v : Json} (hv : Textual v) : (Operand.ofJson v).Safe := by
  cases hv with
  | text s => exact Operand.safe_string s
  | texts s ss =>
    rw [Operand.ofJson, Operand.safe_list_iff, Operand.ofJsonList_eq_map, List.map_map]
    intro w hw
    obtain ⟨r, -, rfl⟩ := List.mem_map.1 hw
    exact Operand.safe_string r

theorem Textual.safe_coerce {v : Json} (hv : Textual v) (c : Classification) (field : String) :
    (c.coerce field v).Safe := by
  cases hv with
  | text s => exact c.safe_coerceText field s
  | texts s ss => exact (Textual.texts s ss).safe_ofJson

namespace Builder

theorem safe_operandList (b : Builder) (root : String) {v : Json} (hv : Textual v) :
    ∀ w ∈ b.operandList root v, w.Safe := by
  intro w hw
  cases hv with
  | text s =>
    obtain ⟨r, -, rfl⟩ := List.mem_map.1 hw
    exact b.classification.safe_coerceText root _
  | texts s ss =>
    rw [operandList, List.map_map] at hw
    obtain ⟨r, -, rfl⟩ := List.mem_map.1 hw
    exact b.classification.safe_coerceText root _

theorem safe_alternatives (b : Builder) (root : String) {v : Json} (hv : Textual v) :
    ∀ w ∈ b.alternatives root v, w.Safe := by
  intro w hw
  cases hv with
  | text s =>
    obtain ⟨r, -, rfl⟩ := List.mem_map.1 hw
    exact b.classification.safe_coerceText root _
  | texts s ss =>
    rw [alternatives, List.map_map] at hw
    obtain ⟨r, -, rfl⟩ := List.mem_map.1 hw
    exact b.classification.safe_coerceText root _

/-- A text has at least one part between its commas. -/
theorem alternatives_ne_nil (b : Builder) (root : String) {v : Json} (hv : Textual v) :
    b.alternatives root v ≠ [] := by
  cases hv with
  | text s => simpa [alternatives, commaParts] using Text.splitAt_ne_nil ',' s.toList
  | texts s ss => simp [alternatives]

theorem safe_condition? (b : Builder) (root : String) {v : Json} (hv : Textual v) {op : Operator}
    {c : Condition} (h : b.condition? root v op = some c) : c.Safe := by
  cases op with
  | compare op =>
    obtain rfl : _ = c := by simpa [condition?] using h
    exact Condition.safe_compare_iff.2 (hv.safe_coerce _ root)
  | member op =>
    obtain rfl : _ = c := by simpa [condition?] using h
    exact Condition.safe_member_iff.2 (b.safe_operandList root hv)
  | contains mode =>
    obtain rfl : _ = c := by simpa [condition?] using h
    exact Condition.safe_contains _ _
  | or => simp [condition?] at h
  | isNull =>
    obtain rfl : _ = c := by simpa [condition?] using h
    split
    · have hnull : Operand.null.Safe := by
        simp [Operand.Safe, Operand.toJson, Json.isSafe, Json.allKeys]
      exact Condition.safe_compare_iff.2 hnull
    · exact Condition.safe_unset
  | isEmpty =>
    obtain rfl : _ = c := by simpa [condition?] using h
    split
    · exact Condition.safe_compare_iff.2 (Operand.safe_string "")
    · exact Condition.safe_unset

theorem safe_leaf (b : Builder) {t : Triple} (hv : Textual t.value) {p : Predicate}
    (h : b.predicate? t = some p) : p.leaf.Safe := by
  obtain ⟨root, fs, -, ⟨-, rfl⟩ | ⟨op, c, -, hc, rfl⟩⟩ := predicate?_cases h
  · refine Tree.safe_equals_iff.2 ?_
    rw [plainOperand]
    split
    · exact hv.safe_ofJson
    · exact hv.safe_coerce _ root
  · refine Tree.safe_conditions_iff.2 ?_
    exact List.forall_mem_singleton.2 (b.safe_condition? root hv hc)

/-- The alternatives of a disjunction are safe exactly if its path is. -/
theorem safe_alternativeTrees_iff (b : Builder) {t : Triple} (hv : Textual t.value) :
    (∀ a ∈ b.alternativeTrees t, a.Safe) ↔ ∀ f ∈ t.fields, isUnsafeKey f = false := by
  rw [alternativeTrees]
  cases hf : t.fields with
  | nil => simp
  | cons root fs =>
    have hsafe := b.safe_alternatives root hv
    obtain ⟨v, hmem⟩ := List.exists_mem_of_ne_nil _ (b.alternatives_ne_nil root hv)
    rw [List.forall_mem_map]
    refine ⟨fun h => (Tree.safe_wrap_iff.1 (h v hmem)).1, fun h w hw => ?_⟩
    exact Tree.safe_wrap_iff.2 ⟨h, Tree.safe_equals_iff.2 (hsafe w hw)⟩

/-- What is carried over whole is cleaned. -/
theorem safe_sanitize_alternativeTrees (b : Builder) {t : Triple} (hv : Textual t.value) :
    ∀ a ∈ (b.alternativeTrees t).map Tree.sanitize, a.Safe := by
  rw [alternativeTrees, List.forall_mem_map]
  cases hf : t.fields with
  | nil => simp
  | cons root fs =>
    rw [List.forall_mem_map]
    intro v hmem
    rw [Tree.sanitize_wrap rfl]
    have hleaf : (Predicate.equals v).leaf.Safe :=
      Tree.safe_equals_iff.2 (b.safe_alternatives root hv v hmem)
    exact Tree.safe_empty.merge_wrap hleaf _

end Builder

/-! ### Alternatives that are still there -/

theorem isUnsafeKey_orKey : isUnsafeKey Tree.orKey = false := by decide

/-- The triple puts alternatives under the reserved key. -/
def Triple.isDisjunction (t : Triple) : Bool := t.operator == some .or

/-- The triple puts something other than alternatives under the reserved key. -/
def Triple.takesOrKey (t : Triple) : Bool :=
  !t.isDisjunction && t.fields.head? == some Tree.orKey

/-- The disjunctions whose alternatives are still there when all triples are laid over one another:
those behind the last triple that puts something else under the reserved key. -/
def openDisjunctions (ts : List Triple) : List Triple :=
  (ts.reverse.takeWhile fun t => !t.takesOrKey).reverse.filter Triple.isDisjunction

theorem openDisjunctions_concat (ts : List Triple) (t : Triple) :
    openDisjunctions (ts ++ [t]) = if t.takesOrKey then []
      else if t.isDisjunction then openDisjunctions ts ++ [t] else openDisjunctions ts := by
  rw [openDisjunctions, List.reverse_append, List.reverse_singleton, List.singleton_append,
    List.takeWhile_cons]
  cases t.takesOrKey with
  | true => rfl
  | false =>
    simp only [Bool.not_false, if_true, Bool.false_eq_true, if_false, List.reverse_cons,
      List.filter_append]
    cases ht : t.isDisjunction <;> simp [ht, openDisjunctions]

/-- What stands under the reserved key while the given disjunctions are open: the first one's
alternatives, cleaned, and then those of the others as they came. -/
def HoldsAlternatives (b : Builder) : List Triple → Option Tree → Prop
  | [], o => ∀ t ∈ o, t.isOr = false ∧ t.Safe
  | d :: late, o =>
    o = some (.or ((b.alternativeTrees d).map Tree.sanitize ++ late.flatMap b.alternativeTrees))

/-- What is known of a tree after the triples `ts`. -/
structure Purity (b : Builder) (ts : List Triple) (tree : Tree) : Prop where
  isNested : tree.isNested = true
  nodup : tree.keys.Nodup
  /-- Everywhere but under the reserved key, all is safe. -/
  elsewhere : ∀ key t, key ≠ Tree.orKey → tree.get? key = some t →
    isUnsafeKey key = false ∧ t.Safe
  atOrKey : HoldsAlternatives b (openDisjunctions ts) (tree.get? Tree.orKey)

theorem HoldsAlternatives.add {b : Builder} {ds : List Triple} {o : Option Tree}
    (h : HoldsAlternatives b ds o) (t : Triple) :
    HoldsAlternatives b (ds ++ [t])
      (some ((o.getD .empty).merge (.or (b.alternativeTrees t)))) := by
  cases ds with
  | nil =>
    show some _ = some _
    rw [List.flatMap_nil, List.append_nil, Option.some.injEq]
    cases o with
    | none => simp [Tree.empty, Tree.merge, Tree.sanitizeList_eq_map]
    | some old =>
      have hold : old.isOr = false := (h old rfl).1
      cases old <;> simp_all [Tree.isOr, Tree.merge, Tree.sanitizeList_eq_map]
  | cons d late =>
    obtain rfl : o = _ := h
    show some _ = some _
    simp [Tree.merge]

/-- Whatever stood under the reserved key, a chain laid over it leaves something safe there. -/
theorem HoldsAlternatives.safe_merge_wrap {b : Builder} {ds : List Triple} {o : Option Tree}
    (h : HoldsAlternatives b ds o) {p : Predicate} (hp : p.leaf.Safe) (fields : List String) :
    ((o.getD .empty).merge (.wrap fields p.leaf)).Safe := by
  cases ds with
  | nil =>
    cases o with
    | none => exact Tree.safe_empty.merge_wrap hp fields
    | some old => exact (h old rfl).2.merge_wrap hp fields
  | cons d late =>
    obtain rfl : o = _ := h
    rw [Option.getD_some, Tree.merge_or_wrap]
    exact Tree.safe_empty.merge_wrap hp fields

namespace Purity

variable {b : Builder} {ts : List Triple} {tree : Tree}

theorem empty (b : Builder) : Purity b [] .empty where
  isNested := rfl
  nodup := List.nodup_nil
  elsewhere key t _ h := by simp [Tree.empty, Tree.get?] at h
  atOrKey := by
    show ∀ t ∈ Tree.get? .empty Tree.orKey, t.isOr = false ∧ t.Safe
    simp [Tree.empty, Tree.get?]

/-- A disjunction adds its alternatives to those that are there. -/
theorem overlay_disjunction (h : Purity b ts tree) {t : Triple} (hf : t.fields ≠ [])
    (ho : t.operator = some .or) : Purity b (ts ++ [t]) (b.overlay tree t) := by
  have hdis : t.isDisjunction = true := by simp [Triple.isDisjunction, ho]
  have htakes : t.takesOrKey = false := by simp [Triple.takesOrKey, hdis]
  rw [Builder.overlay_of_or tree hf ho]
  refine ⟨?_, Tree.nodup_keys_merge_wrap_cons rfl h.nodup _ _, fun key t' hkey hget => ?_, ?_⟩
  · rw [Tree.merge_wrap_cons rfl]
    rfl
  · rw [Tree.get?_merge_wrap_cons rfl, if_neg hkey] at hget
    split at hget
    · simp at hget
    · exact h.elsewhere key t' hkey hget
  · rw [openDisjunctions_concat, htakes, hdis, Tree.get?_merge_wrap_cons rfl,
      isUnsafeKey_orKey]
    exact h.atOrKey.add t

/-- Any other triple with a path puts a chain over the tree. -/
theorem overlay_predicate (h : Purity b ts tree) {t : Triple} {p : Predicate}
    (hp : b.predicate? t = some p) (hleaf : p.leaf.Safe) (ho : t.operator ≠ some .or) :
    Purity b (ts ++ [t]) (b.overlay tree t) := by
  have hdis : t.isDisjunction = false := by simpa [Triple.isDisjunction] using ho
  rw [Builder.overlay_of_predicate? tree hp]
  cases hfs : t.fields with
  | nil => simp [Builder.predicate?, hfs] at hp
  | cons f fs =>
    refine ⟨?_, Tree.nodup_keys_merge_wrap_cons p.isNested_leaf h.nodup _ _,
      fun key t' hkey hget => ?_, ?_⟩
    · rw [Tree.merge_wrap_cons p.isNested_leaf]
      rfl
    · rw [Tree.get?_merge_wrap_cons p.isNested_leaf] at hget
      split at hget
      · simp at hget
      · next hu =>
        refine ⟨by simpa using hu, ?_⟩
        split at hget
        · next hk =>
          subst hk
          obtain rfl : _ = t' := by simpa using hget
          have hchild : ((tree.get? key).getD .empty).Safe := by
            cases hold : tree.get? key with
            | none => exact Tree.safe_empty
            | some old => exact (h.elsewhere key old hkey hold).2
          exact hchild.merge_wrap hleaf fs
        · exact (h.elsewhere key t' hkey hget).2
    · rw [openDisjunctions_concat, hdis, Tree.get?_merge_wrap_cons p.isNested_leaf,
        isUnsafeKey_orKey, Triple.takesOrKey, hdis, hfs]
      by_cases hk : f = Tree.orKey
      · subst hk
        show ∀ t' ∈ _, _
        intro t' ht'
        obtain rfl : _ = t' := by simpa using ht'
        exact ⟨Tree.isOr_merge_wrap _ p fs, h.atOrKey.safe_merge_wrap hleaf fs⟩
      · simpa [hk, Ne.symm hk] using h.atOrKey

/-- **One triple.** -/
theorem overlay (h : Purity b ts tree) {t : Triple} (hv : Textual t.value)
    (hop : t.operator = some .or → t.fields ≠ []) :
    Purity b (ts ++ [t]) (b.overlay tree t) := by
  by_cases ho : t.operator = some .or
  · exact h.overlay_disjunction (hop ho) ho
  · by_cases hf : t.fields = []
    · have hopen : openDisjunctions (ts ++ [t]) = openDisjunctions ts := by
        simp [openDisjunctions_concat, Triple.takesOrKey, Triple.isDisjunction, hf, ho]
      rw [Builder.overlay_of_fields_eq_nil tree hf]
      exact ⟨h.isNested, h.nodup, h.elsewhere, hopen ▸ h.atOrKey⟩
    · obtain ⟨p, hp⟩ := b.exists_predicate? hf ho
      exact h.overlay_predicate hp (b.safe_leaf hv hp) ho

end Purity

/-- **A run of triples.** -/
theorem purity_foldl (b : Builder) {ts : List Triple} (hv : ∀ t ∈ ts, Textual t.value)
    (hop : ∀ t ∈ ts, t.operator = some .or → t.fields ≠ []) :
    Purity b ts (ts.foldl b.overlay .empty) := by
  induction ts using List.reverseRecOn with
  | nil => exact Purity.empty b
  | append_singleton ts t ih =>
    rw [List.foldl_append, List.foldl_cons, List.foldl_nil]
    have hpure := ih (fun u hu => hv u (List.mem_append_left _ hu))
      (fun u hu => hop u (List.mem_append_left _ hu))
    exact hpure.overlay (hv t (by simp)) (hop t (by simp))

/-- After a run of triples, the tree is safe exactly if all that late disjunctions brought is. -/
theorem Purity.safe_iff {b : Builder} {ts : List Triple} {tree : Tree} (h : Purity b ts tree)
    (hv : ∀ t ∈ openDisjunctions ts, Textual t.value) :
    tree.Safe ↔ ∀ t ∈ (openDisjunctions ts).tail, ∀ f ∈ t.fields, isUnsafeKey f = false := by
  have hchild : tree.Safe ↔ ∀ t, tree.get? Tree.orKey = some t → t.Safe := by
    obtain ⟨bs, rfl⟩ : ∃ bs, tree = .nested bs := by
      have hnested := h.isNested
      cases tree <;> simp_all [Tree.isNested]
    refine ⟨fun hsafe t hget => (hsafe.branches _ (Entries.mem_of_get? hget)).2, fun hor => ?_⟩
    rw [Tree.safe_nested_iff]
    rintro ⟨key, t⟩ hmem
    have hget : (Tree.nested bs).get? key = some t := (Entries.mem_iff_get? h.nodup).1 hmem
    by_cases hk : key = Tree.orKey
    · subst hk
      exact ⟨isUnsafeKey_orKey, hor t hget⟩
    · exact h.elsewhere key t hk hget
  have hheld := h.atOrKey
  rw [hchild]
  cases hopen : openDisjunctions ts with
  | nil =>
    rw [hopen] at hheld
    have hall : ∀ t, tree.get? Tree.orKey = some t → t.Safe := fun t ht => (hheld t ht).2
    simpa using hall
  | cons d late =>
    rw [hopen] at hheld hv
    obtain ⟨hd, hlate⟩ := List.forall_mem_cons.1 hv
    have hget : tree.get? Tree.orKey = some _ := hheld
    rw [hget, List.tail_cons]
    simp only [Option.some.injEq, forall_eq', Tree.safe_or_iff, List.forall_mem_append,
      List.forall_mem_flatMap]
    constructor
    · rintro ⟨-, hall⟩ t ht
      exact (b.safe_alternativeTrees_iff (hlate t ht)).1 (hall t ht)
    · intro hall
      exact ⟨b.safe_sanitize_alternativeTrees hd,
        fun t ht => (b.safe_alternativeTrees_iff (hlate t ht)).2 (hall t ht)⟩

theorem textual_flattened_ofQueryString {c : Compiler} {query : String} {t : Triple}
    (h : t ∈ c.flattened (Params.ofQueryString query)) :
    Textual t.value ∧ (t.operator = some .or → t.fields ≠ []) := by
  obtain ⟨p, hp, ht⟩ := c.mem_flattened h
  have hv := textual_ofPairs _ hp
  rw [triples, triplesAt_of_not_object hv.isObject_eq_false, List.mem_singleton] at ht
  subst ht
  exact ⟨hv, Triple.fields_ne_nil_of_operator⟩

/-- **When a compiled query string has no unsafe key**, at any depth: exactly when no disjunction
but the first of those still open has an unsafe field in its path. -/
theorem isSafe_compile_ofQueryString_iff (c : Compiler) (query : String) :
    (c.compile (Params.ofQueryString query)).toJson.isSafe = true ↔
      ∀ t ∈ (openDisjunctions (c.flattened (Params.ofQueryString query))).tail,
        ∀ f ∈ t.fields, isUnsafeKey f = false := by
  have hts : ∀ t ∈ c.flattened (Params.ofQueryString query), Textual t.value ∧ _ :=
    fun t => textual_flattened_ofQueryString
  rw [c.compile_eq_foldl]
  refine (purity_foldl c.toBuilder (fun t ht => (hts t ht).1) fun t ht => (hts t ht).2).safe_iff ?_
  intro t ht
  have hrev := List.mem_reverse.1 (List.mem_filter.1 ht).1
  exact (hts t (List.mem_reverse.1 ((List.takeWhile_sublist _).mem hrev))).1

/-- The second of two disjunctions brings an unsafe key into the list of alternatives. -/
theorem compile_late_disjunction_unsafe :
    ((default : Compiler).compile
      (Params.ofQueryString "a__or=1&constructor__or=2")).toJson.isSafe = false := by
  cbv

end Sieve.Filter
