import Mathlib.Data.List.Nodup
import Sieve.Proofs.Filter.Predicates

/-!
# Merging branches and conditions

Branches are laid over others one at a time, and so are conditions. Each step writes one key: in
place if it is there, else at the end. Whatever one such step keeps, merging keeps, and this is how
invariants of trees are shown to survive it.

## Main definitions

* `Tree.lay` — a branch laid over what may stand under its key

## Main results

* `Tree.mergeBranches_cons` — merging branches, one at a time
* `Tree.forall_mem_mergeBranches` — what every branch has after a merge
* `Condition.keys_add`, `Condition.forall_mem_add` — the same for conditions
* `Condition.nodup_keys_flatMap_entries` — conditions with different keys write to different keys
-/

namespace Sieve.Filter

namespace Tree

variable {target source : List (String × Tree)}

/-! ### Branches -/

theorem sanitizeBranches_eq_map (bs : List (String × Tree)) :
    sanitizeBranches bs = (safeEntries bs).map fun p => (p.1, p.2.sanitize) := by
  induction bs with
  | nil => rfl
  | cons p bs ih =>
    obtain ⟨k, t⟩ := p
    rw [sanitizeBranches, ih, safeEntries, safeEntries, List.filter_cons]
    cases isUnsafeKey k <;> rfl

theorem keys_sanitizeBranches (bs : List (String × Tree)) :
    Entries.keys (sanitizeBranches bs) = Entries.keys (safeEntries bs) := by
  rw [sanitizeBranches_eq_map, Entries.keys, List.map_map]
  rfl

theorem mem_sanitizeBranches {bs : List (String × Tree)} {p : String × Tree}
    (h : p ∈ sanitizeBranches bs) : ∃ t, (p.1, t) ∈ bs ∧ t.sanitize = p.2 := by
  rw [sanitizeBranches_eq_map] at h
  obtain ⟨q, hq, rfl⟩ := List.mem_map.1 h
  exact ⟨q.2, (Entries.mem_safeEntries.1 hq).1, rfl⟩

/-- A branch laid over what may stand under its key: where nothing does, it is carried over. -/
def lay : Option Tree → Tree → Tree
  | some old, t => old.merge t
  | none, t => t.sanitize

/-- **Merging branches, one at a time.** -/
theorem mergeBranches_cons (target : List (String × Tree)) (k : String) (t : Tree)
    (source : List (String × Tree)) : mergeBranches target ((k, t) :: source) =
      if isUnsafeKey k then mergeBranches target source
      else mergeBranches (Entries.insert target k (lay (Entries.get? target k) t)) source := by
  rw [mergeBranches]
  split
  · rfl
  · cases hget : Entries.get? target k with
    | some old => rfl
    | none => rw [Entries.insert_of_get?_eq_none _ hget, lay]

/-- What the branches of the target have, and laying a branch over another keeps, all branches have
after a merge. -/
theorem forall_mem_mergeBranches {P : String → Tree → Prop} (htarget : ∀ p ∈ target, P p.1 p.2)
    (hlay : ∀ p ∈ source, ∀ old : Option Tree, (∀ t ∈ old, P p.1 t) → P p.1 (lay old p.2)) :
    ∀ p ∈ mergeBranches target source, P p.1 p.2 := by
  induction source generalizing target with
  | nil => rwa [mergeBranches]
  | cons p source ih =>
    obtain ⟨k, t⟩ := p
    obtain ⟨hp, hsource⟩ := List.forall_mem_cons.1 hlay
    rw [mergeBranches_cons]
    split
    · exact ih htarget hsource
    · refine ih (fun q hq => ?_) hsource
      rcases Entries.eq_or_mem_of_mem_insert hq with rfl | hq
      · exact hp _ fun t ht => htarget _ (Entries.mem_of_get? ht)
      · exact htarget q hq

theorem nodup_keys_mergeBranches (htarget : (Entries.keys target).Nodup) :
    (Entries.keys (mergeBranches target source)).Nodup := by
  induction source generalizing target with
  | nil => rwa [mergeBranches]
  | cons p source ih =>
    obtain ⟨k, t⟩ := p
    rw [mergeBranches_cons]
    split
    · exact ih htarget
    · exact ih (Entries.nodup_keys_insert _ htarget)

theorem merge_nested_nested (bs cs : List (String × Tree)) :
    (nested bs).merge (nested cs) = nested (mergeBranches (safeEntries bs) cs) := by
  rw [merge]

end Tree

/-! ### Names of operators -/

theorem Comparison.name_injective : Function.Injective Comparison.name := by
  intro op op' h
  cases op <;> cases op' <;> first | rfl | exact absurd h (by decide)

theorem Membership.name_injective : Function.Injective Membership.name := by
  intro op op' h
  cases op <;> cases op' <;> first | rfl | exact absurd h (by decide)

theorem Comparison.name_ne_name (op : Comparison) (op' : Membership) : op.name ≠ op'.name := by
  cases op <;> cases op' <;> decide

theorem Comparison.name_ne_contains (op : Comparison) : op.name ≠ "contains" := by
  cases op <;> decide

theorem Membership.name_ne_contains (op : Membership) : op.name ≠ "contains" := by
  cases op <;> decide

/-! ### Conditions -/

namespace Condition

variable {cs ds : List Condition} {c d : Condition}

theorem key_combine_of_eq (h : d.key = c.key) : (combine d c).key = c.key := by
  rcases key_combine d c with hkey | hkey
  · rw [hkey, h]
  · exact hkey

theorem keys_add (cs : List Condition) (c : Condition) : (add cs c).map key =
    if c.key ∈ cs.map key then cs.map key else cs.map key ++ [c.key] := by
  induction cs with
  | nil => rfl
  | cons d ds ih =>
    rw [add]
    by_cases hd : d.key = c.key
    · simp [hd, key_combine_of_eq hd]
    · rw [if_neg hd, List.map_cons, List.map_cons, ih]
      by_cases hmem : c.key ∈ ds.map key
      · rw [if_pos hmem, if_pos (List.mem_cons_of_mem _ hmem)]
      · rw [if_neg hmem, if_neg (by simpa [Ne.symm hd] using hmem), List.cons_append]

theorem nodup_keys_add (h : (cs.map key).Nodup) : ((add cs c).map key).Nodup := by
  rw [keys_add]
  split
  · exact h
  · next hmem =>
    refine List.nodup_append.2 ⟨h, by simp, fun k hk k' hk' e => hmem ?_⟩
    rwa [← List.mem_singleton.1 hk', ← e]

theorem add_ne_nil (cs : List Condition) (c : Condition) : add cs c ≠ [] := by
  cases cs with
  | nil => simp [add]
  | cons d ds => rw [add]; split <;> simp

/-- What the conditions have, and combining with the new one keeps, all have once it is added. -/
theorem forall_mem_add {P : Condition → Prop} (hcs : ∀ d ∈ cs, P d) (hc : P c)
    (hcombine : ∀ d ∈ cs, d.key = c.key → P (combine d c)) : ∀ d ∈ add cs c, P d := by
  induction cs with
  | nil => simpa [add] using hc
  | cons d ds ih =>
    obtain ⟨hd, hds⟩ := List.forall_mem_cons.1 hcs
    obtain ⟨hdc, hdsc⟩ := List.forall_mem_cons.1 hcombine
    rw [add]
    split
    · next hkey => exact List.forall_mem_cons.2 ⟨hdc hkey, hds⟩
    · exact List.forall_mem_cons.2 ⟨hd, ih hds hdsc⟩

/-! ### Conditions by their keys -/

/-- What stands under the key of a condition once it is added. -/
def joined (old : Option Condition) (c : Condition) : Condition := old.elim c fun d => combine d c

theorem find?_add (cs : List Condition) (c : Condition) (key : String) :
    find? (add cs c) key =
      if key = c.key then some (joined (find? cs key) c) else find? cs key := by
  split
  · next hkey =>
    subst hkey
    induction cs with
    | nil => simp [add, find?_cons, joined]
    | cons d ds ih =>
      rw [add, find?_cons]
      by_cases hd : d.key = c.key
      · simp [hd, find?_cons, key_combine_of_eq hd, joined]
      · simp [hd, find?_cons, ih]
  · next hkey => exact find?_add_of_ne cs hkey

theorem mem_iff_find? (h : (cs.map key).Nodup) {c : Condition} :
    c ∈ cs ↔ find? cs c.key = some c := by
  constructor
  · intro hc
    induction cs with
    | nil => cases hc
    | cons d ds ih =>
      obtain ⟨hd, hds⟩ := List.nodup_cons.1 h
      rw [find?_cons]
      rcases List.mem_cons.1 hc with rfl | hc
      · rw [if_pos rfl]
      · have hmem : c.key ∈ ds.map key := List.mem_map_of_mem hc
        rw [if_neg fun e => hd (by rwa [e]), ih hds hc]
  · exact List.mem_of_find?_eq_some

/-- Conditions with different keys are determined by them up to their order. -/
theorem perm_of_find? (hcs : (cs.map key).Nodup) (hds : (ds.map key).Nodup)
    (h : ∀ key, find? cs key = find? ds key) : cs.Perm ds := by
  rw [List.perm_ext_iff_of_nodup (hcs.of_map key) (hds.of_map key)]
  intro c
  rw [mem_iff_find? hcs, mem_iff_find? hds, h]

/-! ### What conditions write -/

/-- Conditions with different keys write to different keys. -/
theorem disjoint_keys_entries {c d : Condition} (h : c.key ≠ d.key) :
    List.Disjoint (Entries.keys c.entries) (Entries.keys d.entries) := by
  intro key hc hd
  obtain ⟨x, hx⟩ := Entries.exists_get?_of_mem_keys hc
  exact Entries.get?_eq_none_iff.1 (get?_entries_eq_none h.symm hx) hd

theorem nodup_keys_entries (c : Condition) : (Entries.keys c.entries).Nodup := by
  cases c with
  | compare op v => simp [entries]
  | contains text mode => cases mode <;> simp [entries]
  | member op vs => simp [entries]
  | unset => simp [entries]

/-- Different keys keep what conditions write apart. -/
theorem nodup_keys_flatMap_entries {cs : List Condition} (h : (cs.map key).Nodup) :
    (Entries.keys (cs.flatMap entries)).Nodup := by
  rw [Entries.keys, List.map_flatMap, List.nodup_flatMap]
  refine ⟨fun c _ => nodup_keys_entries c, ?_⟩
  rw [List.Nodup, List.pairwise_map] at h
  exact h.imp disjoint_keys_entries

end Condition

end Sieve.Filter
