import Sieve.Proofs.Filter.Overlay

/-!
# Predicates at paths

A tree holds a predicate at the end of a path: a bare operand at the end of its fields, a condition
one key further, among the conditions of its last field. Here is what laying one chain over a tree
does to the predicates that are there, and to the document of the tree at their paths.

Chains whose paths lie apart can *clash* all the same: where one puts a condition on a field and
the other goes below that field, the two trees differ in kind, and the later one takes the place of
the earlier.

## Main definitions

* `Apart` — neither path is a prefix of the other
* `Tree.predicate?` — the predicate at a path of a tree
* `Predicate.Clash` — two chains that cannot both keep their predicates
* `Predicate.Writes` — what a chain writes, and where

## Main results

* `Tree.predicate?_merge_of_none`, `Tree.predicate?_merge_self`, `Tree.predicate?_merge_of_some` —
  a chain adds nothing elsewhere, puts its predicate at its path, and keeps those without a clash
* `Tree.getPath?_toJson_of_predicate?` — a predicate is found in the document
* `Tree.writes_of_getPath?_merge`, `Tree.writes_of_clash` — what is new in the document, and what is
  there after a clash, was written by the chain
-/

namespace Sieve.Filter

/-! ### Paths that lie apart -/

/-- Neither path is a prefix of the other. -/
def Apart (p q : List String) : Prop := ¬ p <+: q ∧ ¬ q <+: p

theorem Apart.symm {p q : List String} (h : Apart p q) : Apart q p := ⟨h.2, h.1⟩

theorem apart_cons_self {f : String} {p q : List String} :
    Apart (f :: p) (f :: q) ↔ Apart p q := by
  simp [Apart, List.cons_prefix_cons]

theorem Apart.exists_eq_cons {p q : List String} (h : Apart p q) : ∃ key p', p = key :: p' := by
  cases p with
  | nil => exact absurd List.nil_prefix h.1
  | cons key p' => exact ⟨key, p', rfl⟩

theorem not_apart_nil {p : List String} : ¬ Apart p [] := fun h => h.2 List.nil_prefix

/-- What lies apart from a path of one key begins with another key. -/
theorem Apart.ne_of_singleton {key k : String} {p : List String} (h : Apart (key :: p) [k]) :
    key ≠ k := by
  rintro rfl
  exact h.2 (List.cons_prefix_cons.2 ⟨rfl, List.nil_prefix⟩)

/-! ### Conditions among others -/

namespace Condition

/-- The first condition with a key. -/
def find? (cs : List Condition) (key : String) : Option Condition :=
  List.find? (fun c => c.key == key) cs

@[simp] theorem find?_nil (key : String) : find? [] key = none := rfl

theorem find?_cons (c : Condition) (cs : List Condition) (key : String) :
    find? (c :: cs) key = if c.key = key then some c else find? cs key := by
  rw [find?, List.find?_cons]
  cases h : c.key == key with
  | true => simp [beq_iff_eq.1 h]
  | false => simp [beq_eq_false_iff_ne.1 h, find?]

theorem key_combine (c d : Condition) : (combine c d).key = c.key ∨ (combine c d).key = d.key := by
  unfold combine
  split
  · exact Or.inl rfl
  · exact Or.inl rfl
  · exact Or.inr rfl

theorem ne_key_combine {c d : Condition} (hd : d.key = c.key) {key : String}
    (hkey : key ≠ c.key) : key ≠ (combine d c).key := by
  rcases key_combine d c with h | h
  · rwa [h, hd]
  · rwa [h]

/-- Lists are joined among comparisons and among membership tests only. -/
theorem eq_of_combine_eq_contains {c d : Condition} {s : String} {m : Option Mode}
    (h : combine d c = contains s m) : combine d c = c := by
  unfold combine at h ⊢
  split at h
  · cases h
  · cases h
  · rfl

theorem find?_add_self {cs : List Condition} {c : Condition} (h : find? cs c.key = none) :
    find? (add cs c) c.key = some c := by
  induction cs with
  | nil => simp [add, find?_cons]
  | cons d ds ih =>
    rw [find?_cons] at h
    split at h
    · simp at h
    · next hd => rw [add, if_neg hd, find?_cons, if_neg hd, ih h]

theorem find?_add_of_ne (cs : List Condition) {c : Condition} {key : String} (h : key ≠ c.key) :
    find? (add cs c) key = find? cs key := by
  induction cs with
  | nil => rw [add, find?_cons, if_neg h.symm]
  | cons d ds ih =>
    rw [add]
    by_cases hd : d.key = c.key
    · have hcomb : (combine d c).key = c.key := (key_combine d c).elim (· ▸ hd) id
      rw [if_pos hd, find?_cons, find?_cons, hcomb, hd, if_neg h.symm, if_neg h.symm]
    · rw [if_neg hd, find?_cons, find?_cons, ih]

/-- The key of a mode. No condition occupies it. -/
def modeKey : String := "mode"

theorem key_ne_modeKey (c : Condition) : c.key ≠ modeKey := by
  cases c with
  | compare op v =>
    show op.name ≠ modeKey
    cases op <;> decide
  | contains s m =>
    show "contains" ≠ modeKey
    decide
  | member op vs =>
    show op.name ≠ modeKey
    cases op <;> decide
  | unset => decide

/-- Besides its own key, a condition can only bring a mode. -/
theorem exists_mode_of_get?_entries {c : Condition} {key : String} {x : Json}
    (hkey : key ≠ c.key) (h : Entries.get? c.entries key = some x) :
    key = modeKey ∧ ∃ s m, c = contains s (some m) ∧ x = .string m.name := by
  cases c with
  | compare op v =>
    have hname : op.name ≠ key := hkey.symm
    simp [entries, Entries.get?_cons, hname] at h
  | member op vs =>
    have hname : op.name ≠ key := hkey.symm
    simp [entries, Entries.get?_cons, hname] at h
  | unset => simp [entries] at h
  | contains s m =>
    have hname : "contains" ≠ key := hkey.symm
    rw [entries, Entries.get?_cons, if_neg hname] at h
    cases m with
    | none => simp at h
    | some m =>
      simp only [Option.map_some, Option.toList_some, Entries.get?_cons, Entries.get?_nil] at h
      split at h
      · next hmode => exact ⟨hmode.symm, s, m, rfl, by simpa using h.symm⟩
      · simp at h

theorem get?_entries_of_ne {c : Condition} {key : String} (hkey : key ≠ c.key)
    (hmode : key ≠ modeKey) : Entries.get? c.entries key = none := by
  rw [Option.eq_none_iff_forall_ne_some]
  intro x hx
  exact hmode (exists_mode_of_get?_entries hkey hx).1

/-- Conditions with different keys write to different keys. -/
theorem get?_entries_eq_none {c d : Condition} (hne : d.key ≠ c.key) {key : String} {x : Json}
    (h : Entries.get? c.entries key = some x) : Entries.get? d.entries key = none := by
  rw [Option.eq_none_iff_forall_ne_some]
  intro y hy
  by_cases hc : key = c.key
  · subst hc
    exact c.key_ne_modeKey (exists_mode_of_get?_entries hne.symm hy).1
  · obtain ⟨rfl, s, m, rfl, -⟩ := exists_mode_of_get?_entries hc h
    obtain ⟨-, s', m', rfl, -⟩ := exists_mode_of_get?_entries d.key_ne_modeKey.symm hy
    exact hne rfl

/-- What a condition writes is found among the entries of all. -/
theorem get?_flatMap_entries {cs : List Condition} {c : Condition} (hc : find? cs c.key = some c)
    {key : String} {x : Json} (h : Entries.get? c.entries key = some x) :
    Entries.get? (cs.flatMap entries) key = some x := by
  induction cs with
  | nil => simp at hc
  | cons d ds ih =>
    rw [List.flatMap_cons, Entries.get?_append]
    rw [find?_cons] at hc
    split at hc
    · obtain rfl : d = c := by simpa using hc
      simp [h]
    · next hd => rw [get?_entries_eq_none hd h, ih hc, Option.none_or]

theorem get?_flatMap_add_of_ne (cs : List Condition) {c : Condition} {key : String}
    (hkey : key ≠ c.key) (hmode : key ≠ modeKey) :
    Entries.get? ((add cs c).flatMap entries) key = Entries.get? (cs.flatMap entries) key := by
  induction cs with
  | nil => simp [add, get?_entries_of_ne hkey hmode]
  | cons d ds ih =>
    rw [add]
    split
    · next hd =>
      have hold : key ≠ d.key := by rwa [hd]
      rw [List.flatMap_cons, List.flatMap_cons, Entries.get?_append, Entries.get?_append,
        get?_entries_of_ne hold hmode, get?_entries_of_ne (ne_key_combine hd hkey) hmode]
    · rw [List.flatMap_cons, List.flatMap_cons, Entries.get?_append, Entries.get?_append, ih]

/-- A mode is a text. -/
theorem exists_string_of_get?_modeKey {cs : List Condition} {x : Json}
    (h : Entries.get? (cs.flatMap entries) modeKey = some x) : ∃ s, x = .string s := by
  induction cs with
  | nil => simp at h
  | cons c cs ih =>
    rw [List.flatMap_cons, Entries.get?_append, Option.or_eq_some_iff] at h
    rcases h with h | ⟨-, h⟩
    · obtain ⟨-, s, m, -, rfl⟩ := exists_mode_of_get?_entries c.key_ne_modeKey.symm h
      exact ⟨_, rfl⟩
    · exact ih h

/-- What another key holds after a condition was put among others was there before, or comes with
the condition. -/
theorem get?_entries_of_get?_flatMap_add {cs : List Condition} {c : Condition} {key : String}
    {x : Json} (hkey : key ≠ c.key) (hnone : Entries.get? (cs.flatMap entries) key = none)
    (h : Entries.get? ((add cs c).flatMap entries) key = some x) :
    Entries.get? c.entries key = some x := by
  induction cs with
  | nil => simpa [add] using h
  | cons d ds ih =>
    rw [List.flatMap_cons, Entries.get?_append, Option.or_eq_none_iff] at hnone
    rw [add] at h
    split at h
    · next hd =>
      rw [List.flatMap_cons, Entries.get?_append, hnone.2, Option.or_none] at h
      obtain ⟨-, s, m, hmode, -⟩ := exists_mode_of_get?_entries (ne_key_combine hd hkey) h
      rwa [eq_of_combine_eq_contains hmode] at h
    · rw [List.flatMap_cons, Entries.get?_append, hnone.1, Option.none_or] at h
      exact ih hnone.2 h

end Condition

/-! ### The predicate at a path -/

namespace Predicate

/-- What the predicate writes into the object of its field. -/
def entries : Predicate → List (String × Json)
  | equals _ => []
  | condition c => c.entries

/-- The value that stands at the place of the predicate; a condition that asks for nothing writes
none. -/
def toJson? : Predicate → Option Json
  | equals v => some v.toJson
  | condition c => Entries.get? c.entries c.key

/-- The path of the predicate of a chain with the given fields. -/
def path (fields : List String) (p : Predicate) : List String := fields ++ p.key?.toList

theorem path_cons (f : String) (fields : List String) (p : Predicate) :
    p.path (f :: fields) = f :: p.path fields := rfl

/-- Two chains clash if one puts a condition on a field that the other one passes through. -/
def Clash (q : List String) (p : Predicate) (fields : List String) (w : Predicate) : Prop :=
  p.key?.isSome = true ∧ q <+: fields ∧ q ≠ fields ∨
    w.key?.isSome = true ∧ fields <+: q ∧ fields ≠ q

theorem clash_cons {f g : String} {q fields : List String} {p w : Predicate} :
    Clash (g :: q) p (f :: fields) w ↔ g = f ∧ Clash q p fields w := by
  simp only [Clash, List.cons_prefix_cons, ne_eq, List.cons.injEq, not_and]
  constructor
  · rintro (⟨hp, ⟨rfl, hpre⟩, hne⟩ | ⟨hw, ⟨rfl, hpre⟩, hne⟩)
    · exact ⟨rfl, Or.inl ⟨hp, hpre, hne rfl⟩⟩
    · exact ⟨rfl, Or.inr ⟨hw, hpre, hne rfl⟩⟩
  · rintro ⟨rfl, ⟨hp, hpre, hne⟩ | ⟨hw, hpre, hne⟩⟩
    · exact Or.inl ⟨hp, ⟨rfl, hpre⟩, fun _ => hne⟩
    · exact Or.inr ⟨hw, ⟨rfl, hpre⟩, fun _ => hne⟩

/-- A chain of the given fields writes `x` at a path. -/
def Writes (fields : List String) (w : Predicate) (path : List String) (x : Json) : Prop :=
  ∃ key, path = fields ++ [key] ∧ Entries.get? w.entries key = some x

theorem Writes.cons {fields : List String} {w : Predicate} {path : List String} {x : Json}
    (h : w.Writes fields path x) (f : String) : w.Writes (f :: fields) (f :: path) x := by
  obtain ⟨key, rfl, hx⟩ := h
  exact ⟨key, rfl, hx⟩

end Predicate

namespace Tree

/-- The predicate at a path: a bare operand stands at the end of its fields, and a condition one key
further. -/
def predicate? (t : Tree) : List String → Option Predicate
  | [] => t.operand?.map .equals
  | key :: path =>
    match t.get? key with
    | some child => child.predicate? path
    | none => if path = [] then (Condition.find? t.conditionList key).map .condition else none

theorem predicate?_nil (t : Tree) : t.predicate? [] = t.operand?.map .equals := by rw [predicate?]

theorem predicate?_cons_of_some {t child : Tree} {key : String} (h : t.get? key = some child)
    (path : List String) : t.predicate? (key :: path) = child.predicate? path := by
  rw [predicate?, h]

theorem predicate?_cons_of_none {t : Tree} {key : String} (h : t.get? key = none)
    (path : List String) : t.predicate? (key :: path) =
      if path = [] then (Condition.find? t.conditionList key).map .condition else none := by
  rw [predicate?, h]

theorem predicate?_cons_eq_none {t : Tree} {key : String} (h : t.get? key = none)
    (hconds : t.conditionList = []) (path : List String) : t.predicate? (key :: path) = none := by
  rw [predicate?_cons_of_none h, hconds]
  split <;> rfl

theorem conditionList_of_get? {t child : Tree} {key : String} (h : t.get? key = some child) :
    t.conditionList = [] := by
  cases t with
  | nested branches => rfl
  | _ => cases h

theorem predicate?_empty (path : List String) : empty.predicate? path = none := by
  cases path with
  | nil => rfl
  | cons key path => exact predicate?_cons_eq_none rfl rfl path

theorem predicate?_getD_get? {t : Tree} {key : String} {path : List String}
    (h : t.predicate? (key :: path) = none) : ((t.get? key).getD empty).predicate? path = none := by
  cases hget : t.get? key with
  | none => exact predicate?_empty path
  | some child => rwa [predicate?_cons_of_some hget] at h

/-- A condition is found among the conditions of its field. -/
theorem find?_conditionList {t : Tree} {key : String} {c : Condition}
    (h : t.predicate? [key] = some (.condition c)) :
    t.get? key = none ∧ Condition.find? t.conditionList key = some c := by
  cases hget : t.get? key with
  | some child =>
    rw [predicate?_cons_of_some hget, predicate?_nil, Option.map_eq_some_iff] at h
    obtain ⟨v, -, hv⟩ := h
    cases hv
  | none =>
    rw [predicate?_cons_of_none hget, if_pos rfl, Option.map_eq_some_iff] at h
    obtain ⟨c', hc', hcc⟩ := h
    cases hcc
    exact ⟨rfl, hc'⟩

/-- Below its first field, a predicate stands in the child under that field. -/
theorem get?_of_predicate?_cons {t : Tree} {f : String} {q : List String} {p : Predicate}
    (h : t.predicate? (p.path (f :: q)) = some p) :
    ∃ child, t.get? f = some child ∧ child.predicate? (p.path q) = some p := by
  rw [Predicate.path_cons] at h
  cases hget : t.get? f with
  | some child => exact ⟨child, rfl, by rwa [predicate?_cons_of_some hget] at h⟩
  | none =>
    rw [predicate?_cons_of_none hget] at h
    split at h
    · next hnil =>
      obtain ⟨c, -, rfl⟩ := Option.map_eq_some_iff.1 h
      simp [Predicate.path, Predicate.key?] at hnil
    · simp at h

theorem predicate?_wrap (fields : List String) (w : Predicate) :
    (wrap fields w.leaf).predicate? (w.path fields) = some w := by
  induction fields with
  | cons f fs ih =>
    have hget : (nested [(f, wrap fs w.leaf)]).get? f = some (wrap fs w.leaf) := if_pos rfl
    rw [wrap_cons, Predicate.path_cons, predicate?_cons_of_some hget, ih]
  | nil =>
    cases w with
    | equals v => rfl
    | condition c =>
      show predicate? (conditions [c]) [c.key] = _
      rw [predicate?_cons_of_none rfl, conditionList, if_pos rfl, Condition.find?_cons, if_pos rfl]
      rfl

/-! ### A chain over a tree -/

variable {t : Tree} {fields path q : List String} {p w : Predicate} {f key : String} {x : Json}

theorem predicate?_merge_wrap_cons (t : Tree) (w : Predicate) (f : String) (fields : List String)
    (key : String) (path : List String) :
    (t.merge (wrap (f :: fields) w.leaf)).predicate? (key :: path) =
      if isUnsafeKey key then none
      else if key = f then (((t.get? f).getD empty).merge (wrap fields w.leaf)).predicate? path
      else (t.get? key).bind fun child => child.predicate? path := by
  have hget := get?_merge_wrap_cons w.isNested_leaf t f fields key
  have hconds : (t.merge (wrap (f :: fields) w.leaf)).conditionList = [] := by
    rw [merge_wrap_cons w.isNested_leaf]
    rfl
  cases hu : isUnsafeKey key with
  | true =>
    rw [hu, if_pos rfl] at hget
    rw [if_pos rfl, predicate?_cons_eq_none hget hconds]
  | false =>
    rw [hu, if_neg Bool.false_ne_true] at hget
    rw [if_neg Bool.false_ne_true]
    by_cases hk : key = f
    · rw [if_pos hk] at hget ⊢
      rw [predicate?_cons_of_some hget]
    · rw [if_neg hk] at hget ⊢
      cases hold : t.get? key with
      | some child =>
        rw [hold] at hget
        rw [predicate?_cons_of_some hget, Option.bind_some]
      | none =>
        rw [hold] at hget
        rw [predicate?_cons_eq_none hget hconds, Option.bind_none]

/-- **A chain adds no predicate elsewhere.** -/
theorem predicate?_merge_of_none (hapart : Apart path (w.path fields))
    (h : t.predicate? path = none) : (t.merge (wrap fields w.leaf)).predicate? path = none := by
  induction fields generalizing t path with
  | cons f fs ih =>
    obtain ⟨key, path, rfl⟩ := hapart.exists_eq_cons
    rw [predicate?_merge_wrap_cons]
    split
    · rfl
    · split
      · next hk =>
        subst hk
        exact ih (apart_cons_self.1 hapart) (predicate?_getD_get? h)
      · cases hget : t.get? key with
        | none => rfl
        | some child => rwa [predicate?_cons_of_some hget] at h
  | nil =>
    cases w with
    | equals v => exact absurd hapart not_apart_nil
    | condition c =>
      obtain ⟨key, path, rfl⟩ := hapart.exists_eq_cons
      have hne : key ≠ c.key := hapart.ne_of_singleton
      rw [wrap_nil, Predicate.leaf, merge_condition, predicate?_cons_of_none rfl, conditionList,
        Condition.find?_add_of_ne _ hne]
      cases hget : t.get? key with
      | none => rwa [predicate?_cons_of_none hget] at h
      | some child => simp [conditionList_of_get? hget]

/-- **A chain puts its predicate at its path**, if none is there. -/
theorem predicate?_merge_self (hsafe : ∀ f ∈ fields, isUnsafeKey f = false)
    (h : t.predicate? (w.path fields) = none) :
    (t.merge (wrap fields w.leaf)).predicate? (w.path fields) = some w := by
  induction fields generalizing t with
  | cons f fs ih =>
    obtain ⟨hf, hfs⟩ := List.forall_mem_cons.1 hsafe
    rw [Predicate.path_cons] at h ⊢
    rw [predicate?_merge_wrap_cons, hf, if_neg Bool.false_ne_true, if_pos rfl]
    exact ih hfs (predicate?_getD_get? h)
  | nil =>
    cases w with
    | equals v =>
      have hop : t.operand? = none := by simpa [Predicate.path, Predicate.key?, predicate?] using h
      rw [wrap_nil, Predicate.leaf, merge_equals, hop]
      rfl
    | condition c =>
      have hnone : Condition.find? t.conditionList c.key = none := by
        cases hget : t.get? c.key with
        | some child => rw [conditionList_of_get? hget, Condition.find?_nil]
        | none =>
          have hfind : t.predicate? [c.key] = none := h
          simpa [predicate?_cons_of_none hget] using hfind
      show predicate? (t.merge (conditions [c])) [c.key] = _
      rw [merge_condition, predicate?_cons_of_none rfl, if_pos rfl, conditionList,
        Condition.find?_add_self hnone]
      rfl

/-- **A chain keeps a predicate that it does not clash with.** -/
theorem predicate?_merge_of_some (hsafe : ∀ f ∈ q, isUnsafeKey f = false)
    (hapart : Apart (p.path q) (w.path fields)) (hclash : ¬ p.Clash q fields w)
    (h : t.predicate? (p.path q) = some p) :
    (t.merge (wrap fields w.leaf)).predicate? (p.path q) = some p := by
  induction fields generalizing t q with
  | cons f fs ih =>
    cases q with
    | nil =>
      cases p with
      | equals v => exact absurd hapart.symm not_apart_nil
      | condition c =>
        exact absurd (Or.inl ⟨rfl, List.nil_prefix, (List.cons_ne_nil _ _).symm⟩) hclash
    | cons g q =>
      obtain ⟨hg, hq⟩ := List.forall_mem_cons.1 hsafe
      obtain ⟨child, hget, hchild⟩ := get?_of_predicate?_cons h
      rw [Predicate.path_cons, predicate?_merge_wrap_cons, hg, if_neg Bool.false_ne_true]
      by_cases hgf : g = f
      · subst hgf
        rw [if_pos rfl, hget, Option.getD_some]
        refine ih hq (apart_cons_self.1 hapart) (fun hc => hclash ?_) hchild
        exact Predicate.clash_cons.2 ⟨rfl, hc⟩
      · rw [if_neg hgf, hget, Option.bind_some, hchild]
  | nil =>
    cases w with
    | equals v => exact absurd hapart not_apart_nil
    | condition c =>
      cases q with
      | cons g q => exact absurd (Or.inr ⟨rfl, List.nil_prefix, (List.cons_ne_nil _ _).symm⟩) hclash
      | nil =>
        cases p with
        | equals v => exact absurd hapart.symm not_apart_nil
        | condition d =>
          have hne : d.key ≠ c.key := hapart.ne_of_singleton
          obtain ⟨-, hfind⟩ := find?_conditionList h
          show predicate? (t.merge (conditions [c])) [d.key] = _
          rw [merge_condition, predicate?_cons_of_none rfl, if_pos rfl, conditionList,
            Condition.find?_add_of_ne _ hne, hfind]
          rfl

/-! ### Documents of trees -/

theorem get?_toJson {child : Tree} (h : t.get? key = some child) :
    t.toJson.get? key = some child.toJson := by
  cases t with
  | nested bs =>
    have hget : Entries.get? bs key = some child := h
    rw [toJson_nested, Json.get?_object, Entries.get?_map_snd, hget, Option.map_some]
  | equals v => simp [get?] at h
  | conditions cs => simp [get?] at h
  | or ts => simp [get?] at h

theorem getPath?_toJson_cons {child : Tree} (h : t.get? key = some child) (path : List String) :
    t.toJson.getPath? (key :: path) = child.toJson.getPath? path := by
  rw [Json.getPath?_cons, get?_toJson h, Option.bind_some]

theorem getPath?_toJson_empty (h : path ≠ []) : empty.toJson.getPath? path = none := by
  obtain ⟨key, path, rfl⟩ := List.exists_cons_of_ne_nil h
  rw [empty, toJson_nested]
  rfl

theorem getPath?_toJson_getD (h : t.toJson.getPath? (key :: path) = none) (hpath : path ≠ []) :
    ((t.get? key).getD empty).toJson.getPath? path = none := by
  cases hget : t.get? key with
  | some child => rwa [getPath?_toJson_cons hget] at h
  | none => exact getPath?_toJson_empty hpath

theorem get?_toJson_merge_wrap_cons (t : Tree) (w : Predicate) (f : String) (fields : List String)
    (key : String) : (t.merge (wrap (f :: fields) w.leaf)).toJson.get? key =
      if isUnsafeKey key then none
      else if key = f then some (((t.get? f).getD empty).merge (wrap fields w.leaf)).toJson
      else (t.get? key).map toJson := by
  have hget := get?_merge_wrap_cons w.isNested_leaf t f fields key
  rw [merge_wrap_cons w.isNested_leaf] at hget ⊢
  rw [get?] at hget
  rw [toJson_nested, Json.get?_object, Entries.get?_map_snd, hget]
  split
  · rfl
  · split <;> rfl

theorem bind_get?_conditionList (h : t.toJson.getPath? (key :: path) = none) :
    ((Entries.get? (t.conditionList.flatMap Condition.entries) key).bind fun v =>
      v.getPath? path) = none := by
  cases t with
  | conditions cs => rwa [toJson_conditions, Json.getPath?_cons, Json.get?_object] at h
  | equals v => rfl
  | or ts => rfl
  | nested bs => rfl

/-- **A predicate is found in the document**, with all that it writes. -/
theorem getPath?_toJson_of_condition {c : Condition}
    (h : t.predicate? ((Predicate.condition c).path fields) = some (.condition c))
    (hx : Entries.get? c.entries key = some x) : t.toJson.getPath? (fields ++ [key]) = some x := by
  induction fields generalizing t with
  | cons f fs ih =>
    obtain ⟨child, hget, hchild⟩ := get?_of_predicate?_cons h
    rw [List.cons_append, getPath?_toJson_cons hget, ih hchild]
  | nil =>
    obtain ⟨-, hfind⟩ := find?_conditionList h
    have hlook := Condition.get?_flatMap_entries hfind hx
    rw [eq_conditions_of_mem (List.mem_of_find?_eq_some hfind), toJson_conditions, List.nil_append,
      Json.getPath?_cons, Json.get?_object, hlook]
    rfl

theorem getPath?_toJson_of_predicate? (h : t.predicate? (p.path fields) = some p)
    (hx : p.toJson? = some x) : t.toJson.getPath? (p.path fields) = some x := by
  cases p with
  | condition c => exact getPath?_toJson_of_condition h hx
  | equals v =>
    induction fields generalizing t with
    | cons f fs ih =>
      obtain ⟨child, hget, hchild⟩ := get?_of_predicate?_cons h
      rw [Predicate.path_cons, getPath?_toJson_cons hget, ih hchild]
    | nil =>
      have hop : t.predicate? [] = some (.equals v) := h
      rw [predicate?_nil, Option.map_eq_some_iff] at hop
      obtain ⟨u, hu, hv⟩ := hop
      cases hv
      obtain rfl : t = equals v := operand?_eq_some_iff.1 hu
      rw [toJson_equals, ← hx]
      rfl

/-- Beside its own key, one condition alone leaves nothing but what it writes. -/
theorem writes_of_getPath?_entries {c : Condition} (hkey : key ≠ c.key)
    (h : ((Entries.get? c.entries key).bind fun v => v.getPath? path) = some x) :
    (Predicate.condition c).Writes [] (key :: path) x := by
  obtain ⟨v, hv, hpath⟩ := Option.bind_eq_some_iff.1 h
  obtain ⟨-, s, m, -, rfl⟩ := Condition.exists_mode_of_get?_entries hkey hv
  cases path with
  | nil =>
    obtain rfl : _ = x := by simpa using hpath
    exact ⟨key, rfl, hv⟩
  | cons k path => simp [Json.getPath?_cons, Json.get?] at hpath

/-- What a condition brings into the document under another key is its mode. -/
theorem writes_of_getPath?_merge_condition {c : Condition} (hne : key ≠ c.key)
    (hnone : t.toJson.getPath? (key :: path) = none)
    (h : (t.merge (wrap [] (Predicate.condition c).leaf)).toJson.getPath? (key :: path) = some x) :
    (Predicate.condition c).Writes [] (key :: path) x := by
  rw [wrap_nil, Predicate.leaf, merge_condition, toJson_conditions, Json.getPath?_cons,
    Json.get?_object] at h
  have hold := bind_get?_conditionList hnone
  by_cases hmode : key = Condition.modeKey
  · subst hmode
    obtain ⟨v, hv, hpath⟩ := Option.bind_eq_some_iff.1 h
    obtain ⟨s, rfl⟩ := Condition.exists_string_of_get?_modeKey hv
    obtain rfl : path = [] := by
      cases path with
      | nil => rfl
      | cons k path => simp [Json.getPath?_cons, Json.get?] at hpath
    obtain rfl : Json.string s = x := by simpa using hpath
    refine ⟨Condition.modeKey, rfl, ?_⟩
    exact Condition.get?_entries_of_get?_flatMap_add hne (by simpa using hold) hv
  · rw [Condition.get?_flatMap_add_of_ne _ hne hmode, hold] at h
    cases h

/-- **What a chain brings into the document elsewhere, it writes itself.** -/
theorem writes_of_getPath?_merge (hapart : Apart path (w.path fields))
    (hnone : t.toJson.getPath? path = none)
    (h : (t.merge (wrap fields w.leaf)).toJson.getPath? path = some x) :
    w.Writes fields path x := by
  induction fields generalizing t path with
  | cons f fs ih =>
    obtain ⟨key, path, rfl⟩ := hapart.exists_eq_cons
    rw [Json.getPath?_cons, get?_toJson_merge_wrap_cons] at h
    split at h
    · simp at h
    · split at h
      · next hk =>
        subst hk
        rw [Option.bind_some] at h
        have hsub := apart_cons_self.1 hapart
        obtain ⟨k, path', rfl⟩ := hsub.exists_eq_cons
        exact (ih hsub (getPath?_toJson_getD hnone (List.cons_ne_nil _ _)) h).cons key
      · cases hget : t.get? key with
        | none => simp [hget] at h
        | some child =>
          rw [hget, Option.map_some, Option.bind_some] at h
          rw [getPath?_toJson_cons hget, h] at hnone
          cases hnone
  | nil =>
    cases w with
    | equals v => exact absurd hapart not_apart_nil
    | condition c =>
      obtain ⟨key, path, rfl⟩ := hapart.exists_eq_cons
      exact writes_of_getPath?_merge_condition hapart.ne_of_singleton hnone h

/-- A branch takes the place of all conditions at its field. -/
theorem writes_of_forall_get?_eq_none {fs : List String} (hnone : ∀ k, t.get? k = none)
    (hapart : Apart (key :: path) (w.path (f :: fs)))
    (h : (t.merge (wrap (f :: fs) w.leaf)).toJson.getPath? (key :: path) = some x) :
    w.Writes (f :: fs) (key :: path) x := by
  rw [Json.getPath?_cons, get?_toJson_merge_wrap_cons, hnone, hnone] at h
  split at h
  · simp at h
  · split at h
    · next hk =>
      subst hk
      have hsub := apart_cons_self.1 hapart
      obtain ⟨k, path', rfl⟩ := hsub.exists_eq_cons
      have hempty := getPath?_toJson_empty (List.cons_ne_nil k path')
      exact (writes_of_getPath?_merge hsub hempty h).cons key
    · simp at h

/-- A condition takes the place of all branches at its field. -/
theorem writes_of_get?_eq_some {child : Tree} {c : Condition} (hget : t.get? f = some child)
    (hapart : Apart (key :: path) [c.key])
    (h : (t.merge (wrap [] (Predicate.condition c).leaf)).toJson.getPath? (key :: path) = some x) :
    (Predicate.condition c).Writes [] (key :: path) x := by
  rw [wrap_nil, Predicate.leaf, merge_condition, conditionList_of_get? hget, toJson_conditions,
    Json.getPath?_cons, Json.get?_object, Condition.add, List.flatMap_singleton] at h
  exact writes_of_getPath?_entries hapart.ne_of_singleton h

/-- **Where a chain clashes with a predicate, only what the chain writes is left** of all that was
at or below the field of the predicate. -/
theorem writes_of_clash (hp : t.predicate? (p.path q) = some p) (hclash : p.Clash q fields w)
    (hpre : q <+: path) (hapart : Apart path (w.path fields))
    (h : (t.merge (wrap fields w.leaf)).toJson.getPath? path = some x) :
    w.Writes fields path x := by
  obtain ⟨key, path, rfl⟩ := hapart.exists_eq_cons
  induction fields generalizing t q path key with
  | cons f fs ih =>
    cases q with
    | nil =>
      -- the predicate stands at this very field
      cases p with
      | equals v => simp [Predicate.Clash, Predicate.key?] at hclash
      | condition c =>
        obtain ⟨-, hfind⟩ := find?_conditionList hp
        have hnone : ∀ k, t.get? k = none := by
          rw [eq_conditions_of_mem (List.mem_of_find?_eq_some hfind)]
          exact fun _ => rfl
        exact writes_of_forall_get?_eq_none hnone hapart h
    | cons g q =>
      obtain ⟨rfl, hsubclash⟩ := Predicate.clash_cons.1 hclash
      obtain ⟨rfl, hsubpre⟩ := List.cons_prefix_cons.1 hpre
      obtain ⟨child, hget, hchild⟩ := get?_of_predicate?_cons hp
      have hsub := apart_cons_self.1 hapart
      obtain ⟨k, path', rfl⟩ := hsub.exists_eq_cons
      rw [Json.getPath?_cons, get?_toJson_merge_wrap_cons, if_pos rfl, hget] at h
      split at h
      · simp at h
      · exact (ih hchild hsubclash k path' hsubpre hsub h).cons g
  | nil =>
    cases w with
    | equals v => exact absurd hapart not_apart_nil
    | condition c =>
      cases q with
      | nil => simp [Predicate.Clash] at hclash
      | cons g q =>
        -- the predicate stands in a branch below this field
        obtain ⟨child, hget, -⟩ := get?_of_predicate?_cons hp
        exact writes_of_get?_eq_some hget hapart h

end Tree

end Sieve.Filter
