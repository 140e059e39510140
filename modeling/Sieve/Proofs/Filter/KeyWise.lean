import Sieve.Proofs.Filter.Merging
import Sieve.Proofs.Json.Merging

/-!
# Merging key by key

Branches are laid over branches, and conditions put among conditions, in one and the same way: a key
that is there keeps its place and its two values are joined, and a key that is new goes to the end.
What differs is only how two values are joined. So both are `Entries.mergeWith` of a function, and
what holds of it for every function is shown once.

Keys of what is merged must not repeat, and no branch may have an unsafe key, which merging would
drop.

## Main definitions

* `Entries.mergeWith` — lays entries over others, joining the values of a key with a function
* `Entries.IsKeyWise` — entries that others are joined to key by key
* `Tree.SafeKeys` — no branch at any depth has an unsafe key
* `Tree.DistinctKeys` — no key repeats in a branch or among conditions
* `Condition.keyed` — conditions as entries

## Main results

* `Entries.keys_mergeWith`, `Entries.get?_mergeWith` — the merged keys, and what stands under each
* `Entries.isKeyWise_iff` — what it is for entries to be joined key by key
* `Entries.mergeWith_assoc` — merging is associative if joining is, wherever three values meet
* `Tree.mergeBranches_eq_mergeWith`, `Condition.keyed_addAll` — the two uses
* `Tree.merge_nested_isKeyWise` — branches without unsafe keys are merged key by key
* `Tree.SafeKeys.merge`, `Tree.DistinctKeys.merge` — merging keeps both
-/

namespace Sieve

/-! ### Entries -/

namespace Entries

universe u

variable {α : Type u} {f : α → α → α} {xs ys zs : Entries α} {key : String}

/-- Lays entries over others in turn. Under a key that is there, `f` joins the two values. -/
def mergeWith (f : α → α → α) (target source : Entries α) : Entries α :=
  source.foldl (fun es p => insert es p.1 ((get? es p.1).elim p.2 fun old => f old p.2)) target

theorem mergeWith_nil (f : α → α → α) (xs : Entries α) : mergeWith f xs [] = xs := rfl

theorem mergeWith_cons (f : α → α → α) (xs : Entries α) (p : String × α) (ys : Entries α) :
    mergeWith f xs (p :: ys) =
      mergeWith f (insert xs p.1 ((get? xs p.1).elim p.2 fun old => f old p.2)) ys := rfl

/-- **The merged keys** are those of the target, and behind them the new ones. -/
theorem keys_mergeWith (hys : (keys ys).Nodup) :
    keys (mergeWith f xs ys) = keys xs ++ (keys ys).filter fun key => key ∉ keys xs := by
  induction ys generalizing xs with
  | nil => simp [mergeWith_nil]
  | cons p ys ih =>
    obtain ⟨k, v⟩ := p
    obtain ⟨hk, hys⟩ := List.nodup_cons.1 hys
    rw [mergeWith_cons, ih hys, keys_cons]
    by_cases hmem : k ∈ keys xs
    · rw [keys_insert_of_mem _ hmem, List.filter_cons_of_neg (by simpa using hmem)]
    · have hrest : (keys ys).filter (fun key => key ∉ keys xs ++ [k]) =
          (keys ys).filter fun key => key ∉ keys xs := by
        refine List.filter_congr fun key hkey => ?_
        have hne : key ≠ k := fun e => hk (e ▸ hkey)
        simp [hne]
      rw [keys_insert_of_not_mem _ hmem, hrest, List.filter_cons_of_pos (by simpa using hmem),
        List.append_assoc, List.singleton_append]

/-- **What stands under a key** after a merge is what the two sides have there, joined if both have
something. -/
theorem get?_mergeWith (hys : (keys ys).Nodup) (key : String) :
    get? (mergeWith f xs ys) key = Option.merge f (get? xs key) (get? ys key) := by
  induction ys generalizing xs with
  | nil => cases h : get? xs key <;> simp [mergeWith_nil, h]
  | cons p ys ih =>
    obtain ⟨k, v⟩ := p
    obtain ⟨hk, hys⟩ := List.nodup_cons.1 hys
    rw [mergeWith_cons, ih hys, get?_cons]
    by_cases hkey : k = key
    · subst hkey
      rw [get?_insert_self, get?_eq_none_iff.2 hk, if_pos rfl]
      cases get? xs k <;> rfl
    · rw [get?_insert_of_ne _ (Ne.symm hkey), if_neg hkey]

theorem nodup_keys_mergeWith (hxs : (keys xs).Nodup) :
    (keys (mergeWith f xs ys)).Nodup := by
  induction ys generalizing xs with
  | nil => exact hxs
  | cons p ys ih => exact ih (nodup_keys_insert _ hxs)

/-- Entries without repeated keys are determined by their keys, in order, and their look-ups. -/
theorem eq_of_keys_eq (hxs : (keys xs).Nodup) (hkeys : keys xs = keys ys)
    (h : ∀ key, get? xs key = get? ys key) : xs = ys := by
  induction xs generalizing ys with
  | nil => exact (List.map_eq_nil_iff.1 hkeys.symm).symm
  | cons p xs ih =>
    obtain ⟨k, v⟩ := p
    obtain ⟨q, ys, rfl⟩ := List.exists_cons_of_ne_nil (l := ys) (by rintro rfl; cases hkeys)
    obtain ⟨k', w⟩ := q
    obtain ⟨rfl, hrest⟩ : k = k' ∧ keys xs = keys ys := by simpa using hkeys
    obtain ⟨hk, hxs⟩ := List.nodup_cons.1 hxs
    obtain rfl : v = w := by simpa [get?_cons] using h k
    have hget : ∀ key, get? xs key = get? ys key := by
      intro key
      by_cases hkey : k = key
      · subst hkey
        rw [get?_eq_none_iff.2 hk, get?_eq_none_iff.2 (hrest ▸ hk)]
      · simpa [get?_cons, hkey] using h key
    rw [ih hxs hrest hget]

/-- The third entries are what the first two are joined to key by key: the keys of the first come in
their order, then the new ones in theirs. What only one side has stands as it is, and what both have
is joined. -/
structure IsKeyWise (f : α → α → α) (xs ys zs : Entries α) : Prop where
  keys_eq : keys zs = keys xs ++ (keys ys).filter fun key => key ∉ keys xs
  left : ∀ key ∉ keys ys, get? zs key = get? xs key
  right : ∀ key ∉ keys xs, get? zs key = get? ys key
  both : ∀ key x y, get? xs key = some x → get? ys key = some y → get? zs key = some (f x y)

theorem isKeyWise_mergeWith (hys : (keys ys).Nodup) : IsKeyWise f xs ys (mergeWith f xs ys) where
  keys_eq := keys_mergeWith hys
  left key hkey := by
    rw [get?_mergeWith hys, get?_eq_none_iff.2 hkey, Option.merge_none_right]
  right key hkey := by
    rw [get?_mergeWith hys, get?_eq_none_iff.2 hkey, Option.merge_none_left]
  both key x y hx hy := by rw [get?_mergeWith hys, hx, hy, Option.merge_some_some]

/-- **To be joined key by key determines the entries**, their order included. -/
theorem isKeyWise_iff (hxs : (keys xs).Nodup) (hys : (keys ys).Nodup) :
    IsKeyWise f xs ys zs ↔ zs = mergeWith f xs ys := by
  refine ⟨fun h => ?_, fun h => h ▸ isKeyWise_mergeWith hys⟩
  have hkeys : keys (mergeWith f xs ys) = keys zs := (keys_mergeWith hys).trans h.keys_eq.symm
  refine (eq_of_keys_eq (nodup_keys_mergeWith hxs) hkeys fun key => ?_).symm
  have hmerge : IsKeyWise f xs ys (mergeWith f xs ys) := isKeyWise_mergeWith hys
  by_cases hx : key ∈ keys xs
  · by_cases hy : key ∈ keys ys
    · obtain ⟨x, hx⟩ := exists_get?_of_mem_keys hx
      obtain ⟨y, hy⟩ := exists_get?_of_mem_keys hy
      rw [h.both key x y hx hy, hmerge.both key x y hx hy]
    · rw [h.left key hy, hmerge.left key hy]
  · rw [h.right key hx, hmerge.right key hx]

/-- Entries that share no key with others are put behind them. -/
theorem mergeWith_of_disjoint (hxs : (keys xs).Nodup) (hys : (keys ys).Nodup)
    (h : List.Disjoint (keys xs) (keys ys)) : mergeWith f xs ys = xs ++ ys := by
  have hnew : (keys ys).filter (fun key => key ∉ keys xs) = keys ys :=
    List.filter_eq_self.2 fun key hkey => decide_eq_true (List.disjoint_symm h hkey)
  refine ((isKeyWise_iff hxs hys).1 ⟨?_, fun key hkey => ?_, fun key hkey => ?_, ?_⟩).symm
  · rw [hnew, keys, List.map_append]
    rfl
  · rw [get?_append, get?_eq_none_iff.2 hkey, Option.or_none]
  · rw [get?_append, get?_eq_none_iff.2 hkey, Option.none_or]
  · intro key x y hx hy
    exact absurd (mem_keys_of_get? hy) (h (mem_keys_of_get? hx))

/-- **Merging is associative** if joining is, wherever three values meet under one key. -/
theorem mergeWith_assoc (hxs : (keys xs).Nodup) (hys : (keys ys).Nodup) (hzs : (keys zs).Nodup)
    (h : ∀ key x y z, get? xs key = some x → get? ys key = some y → get? zs key = some z →
      f (f x y) z = f x (f y z)) :
    mergeWith f (mergeWith f xs ys) zs = mergeWith f xs (mergeWith f ys zs) := by
  have hyzs : (keys (mergeWith f ys zs)).Nodup := nodup_keys_mergeWith hys
  refine eq_of_keys_eq (nodup_keys_mergeWith (nodup_keys_mergeWith hxs)) ?_ fun key => ?_
  · rw [keys_mergeWith hzs, keys_mergeWith hyzs, keys_mergeWith hys, keys_mergeWith hzs,
      List.filter_append, List.append_assoc, List.filter_filter]
    congr 2
    refine List.filter_congr fun key _ => ?_
    by_cases hx : key ∈ keys xs <;> by_cases hy : key ∈ keys ys <;> simp [hx, hy]
  · rw [get?_mergeWith hzs, get?_mergeWith hyzs, get?_mergeWith hys, get?_mergeWith hzs]
    have hkey := h key
    generalize get? xs key = x, get? ys key = y, get? zs key = z at hkey
    cases x with
    | none => cases y <;> cases z <;> rfl
    | some x =>
      cases y with
      | none => cases z <;> rfl
      | some y =>
        cases z with
        | none => rfl
        | some z => exact congrArg some (hkey x y z rfl rfl rfl)

end Entries

namespace Filter

/-! ### Conditions -/

namespace Condition

/-- Conditions as entries, each under the key that it occupies. -/
def keyed (cs : List Condition) : Entries Condition := cs.map fun c => (c.key, c)

theorem keys_keyed (cs : List Condition) : Entries.keys (keyed cs) = cs.map key := by
  rw [keyed, Entries.keys, List.map_map]
  rfl

theorem keyed_injective : Function.Injective keyed := by
  intro cs ds h
  have hsnd := congrArg (List.map Prod.snd) h
  simpa [keyed, Function.comp_def] using hsnd

theorem mem_of_get?_keyed {cs : List Condition} {k : String} {c : Condition}
    (h : Entries.get? (keyed cs) k = some c) : c ∈ cs ∧ c.key = k := by
  obtain ⟨d, hd, heq⟩ := List.mem_map.1 (Entries.mem_of_get? h)
  obtain ⟨rfl, rfl⟩ := Prod.mk.inj heq
  exact ⟨hd, rfl⟩

theorem keyed_add (ds : List Condition) (c : Condition) : keyed (add ds c) =
    Entries.insert (keyed ds) c.key
      ((Entries.get? (keyed ds) c.key).elim c fun d => combine d c) := by
  induction ds with
  | nil => rfl
  | cons d ds ih =>
    rw [add, keyed, keyed, List.map_cons, Entries.get?_cons, Entries.insert]
    by_cases h : d.key = c.key
    · rw [if_pos h, if_pos h, if_pos h, List.map_cons, key_combine_of_eq h, Option.elim_some, h]
    · rw [if_neg h, if_neg h, if_neg h, List.map_cons]
      exact congrArg _ ih

/-- **Conditions are put among others key by key.** -/
theorem keyed_addAll (ds cs : List Condition) :
    keyed (addAll ds cs) = Entries.mergeWith combine (keyed ds) (keyed cs) := by
  induction cs generalizing ds with
  | nil => rfl
  | cons c cs ih =>
    rw [addAll, List.foldl_cons, ← addAll, ih, keyed_add]
    rfl

theorem nodup_keys_addAll {ds : List Condition} (h : (ds.map key).Nodup) (cs : List Condition) :
    ((addAll ds cs).map key).Nodup := by
  rw [← keys_keyed] at h ⊢
  rw [keyed_addAll]
  exact Entries.nodup_keys_mergeWith h

end Condition

/-! ### Branches -/

namespace Tree

/-- No branch at any depth, in alternatives too, has an unsafe key. -/
inductive SafeKeys : Tree → Prop where
  | equals (v : Operand) : SafeKeys (.equals v)
  | conditions (cs : List Condition) : SafeKeys (.conditions cs)
  | or {ts : List Tree} (h : ∀ t ∈ ts, SafeKeys t) : SafeKeys (.or ts)
  | nested {bs : List (String × Tree)} (hkeys : ∀ p ∈ bs, isUnsafeKey p.1 = false)
      (h : ∀ p ∈ bs, SafeKeys p.2) : SafeKeys (.nested bs)

/-- No key repeats in a branch, and no two conditions of one leaf occupy the same key. Alternatives
may be anything. -/
inductive DistinctKeys : Tree → Prop where
  | equals (v : Operand) : DistinctKeys (.equals v)
  | conditions {cs : List Condition} (h : (cs.map Condition.key).Nodup) :
    DistinctKeys (.conditions cs)
  | or (ts : List Tree) : DistinctKeys (.or ts)
  | nested {bs : List (String × Tree)} (hkeys : (Entries.keys bs).Nodup)
      (h : ∀ p ∈ bs, DistinctKeys p.2) : DistinctKeys (.nested bs)

variable {t s : Tree} {bs cs : List (String × Tree)}

/-- The alternatives that a tree holds. -/
def alternatives : Tree → List Tree
  | or ts => ts
  | _ => []

theorem exists_branches_of_isNested (h : t.isNested = true) : ∃ bs, t = nested bs := by
  cases t with
  | nested bs => exact ⟨bs, rfl⟩
  | _ => cases h

/-- Where no key is unsafe, nothing is dropped. -/
theorem SafeKeys.sanitize_eq (h : t.SafeKeys) : t.sanitize = t := by
  induction h with
  | equals v => rw [sanitize] <;> simp
  | conditions cs => rw [sanitize] <;> simp
  | @or ts _ ih =>
    have hmap : ts.map sanitize = ts.map id := List.map_congr_left ih
    rw [sanitize, sanitizeList_eq_map, hmap, List.map_id]
  | @nested bs hkeys _ ih =>
    have hmap : bs.map (fun p => (p.1, p.2.sanitize)) = bs.map id :=
      List.map_congr_left fun p hp => by rw [ih p hp]; rfl
    rw [sanitize, sanitizeBranches_eq_map, Entries.safeEntries_of_forall hkeys, hmap, List.map_id]

theorem safeKeys_nested_iff :
    (nested bs).SafeKeys ↔ ∀ p ∈ bs, isUnsafeKey p.1 = false ∧ p.2.SafeKeys := by
  refine ⟨fun h => ?_, fun h => .nested (fun p hp => (h p hp).1) fun p hp => (h p hp).2⟩
  cases h with
  | nested hkeys h => exact fun p hp => ⟨hkeys p hp, h p hp⟩

theorem distinctKeys_nested_iff : (nested bs).DistinctKeys ↔
    (Entries.keys bs).Nodup ∧ ∀ p ∈ bs, p.2.DistinctKeys := by
  refine ⟨fun h => ?_, fun h => .nested h.1 h.2⟩
  cases h with
  | nested hkeys h => exact ⟨hkeys, h⟩

theorem distinctKeys_conditions_iff {cs : List Condition} :
    (conditions cs).DistinctKeys ↔ (cs.map Condition.key).Nodup := by
  refine ⟨fun h => ?_, .conditions⟩
  cases h with
  | conditions h => exact h

theorem mergeBranches_eq_mergeWith (h : (nested cs).SafeKeys) (bs : List (String × Tree)) :
    mergeBranches bs cs = Entries.mergeWith merge bs cs := by
  rw [safeKeys_nested_iff] at h
  induction cs generalizing bs with
  | nil => rw [mergeBranches, Entries.mergeWith_nil]
  | cons p cs ih =>
    obtain ⟨k, t⟩ := p
    obtain ⟨⟨hk, ht⟩, hcs⟩ := List.forall_mem_cons.1 h
    rw [mergeBranches_cons, if_neg (by simp [hk]), ih hcs, Entries.mergeWith_cons]
    cases Entries.get? bs k with
    | none => rw [lay, ht.sanitize_eq, Option.elim_none]
    | some old => rfl

/-- **Branches are merged key by key.** -/
theorem merge_nested_eq_mergeWith (hbs : (nested bs).SafeKeys) (hcs : (nested cs).SafeKeys) :
    (nested bs).merge (nested cs) = nested (Entries.mergeWith merge bs cs) := by
  have hkeys : ∀ p ∈ bs, isUnsafeKey p.1 = false := fun p hp => (safeKeys_nested_iff.1 hbs p hp).1
  rw [merge_nested_nested, Entries.safeEntries_of_forall hkeys, mergeBranches_eq_mergeWith hcs]

theorem merge_or (t : Tree) {ss : List Tree} (hss : (or ss).SafeKeys) :
    t.merge (or ss) = or (t.alternatives ++ ss) := by
  have hsanitize : sanitizeList ss = ss := by
    have h := hss.sanitize_eq
    rw [sanitize] at h
    exact or.inj h
  cases t <;> simp [merge, alternatives, hsanitize]

theorem SafeKeys.alternatives (h : t.SafeKeys) : ∀ u ∈ t.alternatives, u.SafeKeys := by
  cases h with
  | or h => exact h
  | _ => exact fun u hu => nomatch hu

/-- Branches that share no key are put behind one another. -/
theorem merge_nested_of_disjoint (hbs : (nested bs).SafeKeys) (hcs : (nested cs).SafeKeys)
    (hbkeys : (Entries.keys bs).Nodup) (hckeys : (Entries.keys cs).Nodup)
    (h : List.Disjoint (Entries.keys bs) (Entries.keys cs)) :
    (nested bs).merge (nested cs) = nested (bs ++ cs) := by
  rw [merge_nested_eq_mergeWith hbs hcs, Entries.mergeWith_of_disjoint hbkeys hckeys h]

/-- **Merging branches is key-wise and keeps their order.** No branches change nothing on either
side, and branches that share no key may be merged the other way around, but for their order. -/
theorem merge_nested_isKeyWise (hbs : (nested bs).SafeKeys) (hcs : (nested cs).SafeKeys)
    (hbkeys : (Entries.keys bs).Nodup) (hckeys : (Entries.keys cs).Nodup) :
    (∃ ds, (nested bs).merge (nested cs) = nested ds ∧ (Entries.keys ds).Nodup ∧
      Entries.IsKeyWise merge bs cs ds) ∧
    (nested []).merge (nested bs) = nested bs ∧ (nested bs).merge (nested []) = nested bs ∧
    (List.Disjoint (Entries.keys bs) (Entries.keys cs) → ∃ ds es,
      (nested bs).merge (nested cs) = nested ds ∧ (nested cs).merge (nested bs) = nested es ∧
        ds.Perm es) := by
  have hempty : (nested []).SafeKeys := .nested nofun nofun
  refine ⟨⟨_, merge_nested_eq_mergeWith hbs hcs, Entries.nodup_keys_mergeWith hbkeys,
    Entries.isKeyWise_mergeWith hckeys⟩, ?_, ?_, fun h => ⟨bs ++ cs, cs ++ bs, ?_, ?_, ?_⟩⟩
  · exact merge_nested_of_disjoint hempty hbs List.nodup_nil hbkeys (List.disjoint_nil_left _)
  · rw [merge_nested_eq_mergeWith hbs hempty, Entries.mergeWith_nil]
  · exact merge_nested_of_disjoint hbs hcs hbkeys hckeys h
  · exact merge_nested_of_disjoint hcs hbs hckeys hbkeys (List.disjoint_symm h)
  · exact List.perm_append_comm

theorem merge_nested_isKeyWise_people :
    (∃ ds, (nested [("age", .conditions [.compare .gt (.int 1)]), ("name", .equals (.int 2))]).merge
        (nested [("city", .equals (.int 3)), ("age", .conditions [.compare .lt (.int 4)])]) =
          nested ds ∧ Entries.keys ds = ["age", "name", "city"]) ∧
    (∃ ds es, (nested [("age", .equals (.int 1))]).merge (nested [("city", .equals (.int 3))]) =
      nested ds ∧ (nested [("city", .equals (.int 3))]).merge (nested [("age", .equals (.int 1))]) =
        nested es ∧ ds.Perm es) := by
  have hage : isUnsafeKey "age" = false := by decide
  have hcity : isUnsafeKey "city" = false := by decide
  have hname : isUnsafeKey "name" = false := by decide
  have hleaf : ∀ cs, (conditions cs).SafeKeys := .conditions
  have hequals : ∀ v, (equals v).SafeKeys := .equals
  constructor
  · have hbs : (nested [("age", .conditions [.compare .gt (.int 1)]),
        ("name", .equals (.int 2))]).SafeKeys :=
      safeKeys_nested_iff.2 (by simp [hage, hname, hleaf, hequals])
    have hcs : (nested [("city", .equals (.int 3)),
        ("age", .conditions [.compare .lt (.int 4)])]).SafeKeys :=
      safeKeys_nested_iff.2 (by simp [hage, hcity, hleaf, hequals])
    obtain ⟨⟨ds, hmerge, -, hds⟩, -⟩ := merge_nested_isKeyWise hbs hcs (by decide) (by decide)
    exact ⟨ds, hmerge, hds.keys_eq.trans (by decide)⟩
  · exact (merge_nested_isKeyWise (safeKeys_nested_iff.2 (by simp [hage, hequals]))
      (safeKeys_nested_iff.2 (by simp [hcity, hequals])) (by decide) (by decide)).2.2.2 (by simp)

/-- **Merging brings no unsafe key.** -/
theorem SafeKeys.merge (ht : t.SafeKeys) (hs : s.SafeKeys) : (t.merge s).SafeKeys := by
  induction hs generalizing t with
  | equals v =>
    rw [merge_equals]
    exact .equals _
  | conditions cs => cases t <;> exact .conditions _
  | @or ss h =>
    rw [merge_or t (.or h)]
    exact .or fun u hu => (List.mem_append.1 hu).elim (ht.alternatives u) (h u)
  | @nested cs hkeys h ih =>
    have hcs : (Tree.nested cs).SafeKeys := .nested hkeys h
    cases hnested : t.isNested with
    | false => rwa [merge_nested_of_not_nested hnested, hcs.sanitize_eq]
    | true =>
      obtain ⟨bs, rfl⟩ := exists_branches_of_isNested hnested
      have hbs := safeKeys_nested_iff.1 ht
      rw [merge_nested_nested, safeKeys_nested_iff]
      refine forall_mem_mergeBranches (P := fun k t => isUnsafeKey k = false ∧ t.SafeKeys)
        (fun p hp => hbs p (Entries.mem_safeEntries.1 hp).1) ?_
      intro p hp old hold
      refine ⟨hkeys p hp, ?_⟩
      cases old with
      | none => rw [lay, (h p hp).sanitize_eq]; exact h p hp
      | some old => exact ih p hp (hold old rfl).2

/-- **Merging repeats no key.** -/
theorem DistinctKeys.merge (ht : t.DistinctKeys) (hs : s.DistinctKeys) (hsafe : s.SafeKeys) :
    (t.merge s).DistinctKeys := by
  induction hs generalizing t with
  | equals v =>
    rw [merge_equals]
    exact .equals _
  | @conditions cs h =>
    cases ht with
    | conditions hds => exact .conditions (Condition.nodup_keys_addAll hds cs)
    | _ => exact .conditions h
  | or ss =>
    rw [merge_or t hsafe]
    exact .or _
  | @nested cs hkeys h ih =>
    have hcs := safeKeys_nested_iff.1 hsafe
    cases hnested : t.isNested with
    | false =>
      rw [merge_nested_of_not_nested hnested, hsafe.sanitize_eq]
      exact .nested hkeys h
    | true =>
      obtain ⟨bs, rfl⟩ := exists_branches_of_isNested hnested
      cases ht with
      | nested hnodup hbs =>
        rw [merge_nested_nested]
        refine .nested (nodup_keys_mergeBranches (Entries.nodup_keys_safeEntries hnodup)) ?_
        refine forall_mem_mergeBranches (P := fun _ t => t.DistinctKeys)
          (fun p hp => hbs p (Entries.mem_safeEntries.1 hp).1) ?_
        intro p hp old hold
        cases old with
        | none => rw [lay, (hcs p hp).2.sanitize_eq]; exact h p hp
        | some old => exact ih p hp (hold old rfl) (hcs p hp).2

end Tree

end Filter

end Sieve
