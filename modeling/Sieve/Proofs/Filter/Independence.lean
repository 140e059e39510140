import Mathlib
import Sieve.Proofs.Filter.Predicates

/-!
# Parameters compiled together

Every triple with a path puts one predicate at one place of the compiled filter, its output path.
Among triples whose output paths lie apart, a later one can still take the predicate away, if one
of the two puts a condition on a field that the other one passes through. There is no other way in
which a predicate is lost.

## Main definitions

* `Builder.outputPath` — where a triple puts its predicate
* `Triple.Clashes` — two triples that cannot both keep their predicates
* `Builder.modeOf?` — what a substring test writes besides its predicate
* `Independent` — plain triples whose output paths all lie apart

## Main results

* `Independent.predicate?_layers` — a predicate stays as long as nothing clashes with it
* `Independent.exists_modeOf?_of_clashes` — after a clash at most a mode is found
* `getPath?_compile_eq_some_iff` — when a predicate is found in the compiled filter
-/

namespace Sieve.Filter

/-! ### Triples -/

/-- The triple has a path of safe fields and an operator, if any, that always puts a condition at a
key: neither a disjunction nor a test that can be left switched off. -/
structure Triple.Plain (t : Triple) : Prop where
  fields_ne_nil : t.fields ≠ []
  safe : ∀ f ∈ t.fields, isUnsafeKey f = false
  operator_ne : ∀ op ∈ t.operator, op ≠ .or ∧ op ≠ .isNull ∧ op ≠ .isEmpty

/-- Two triples clash if one puts a condition on a field that the other one passes through. -/
def Triple.Clashes (t u : Triple) : Prop :=
  t.operator.isSome = true ∧ t.fields <+: u.fields ∧ t.fields ≠ u.fields ∨
    u.operator.isSome = true ∧ u.fields <+: t.fields ∧ u.fields ≠ t.fields

namespace Builder

variable {b : Builder} {t u : Triple} {p w : Predicate}

/-- Where a triple puts its predicate: its fields, and the key of its condition if it has one. -/
def outputPath (b : Builder) (t : Triple) : List String :=
  t.fields ++ ((b.predicate? t).bind Predicate.key?).toList

/-- The mode that a substring test writes beside its text, and where. -/
def modeOf? (b : Builder) (t : Triple) : Option (List String × Json) :=
  match t.operator with
  | some (.contains mode) =>
    (b.mode? mode).map fun m => (t.fields ++ [Condition.modeKey], .string m.name)
  | _ => none

theorem outputPath_of_predicate? (h : b.predicate? t = some p) :
    b.outputPath t = p.path t.fields := by
  rw [outputPath, h, Option.bind_some, Predicate.path]

theorem isSome_key?_of_predicate? (h : b.predicate? t = some p) :
    p.key?.isSome = t.operator.isSome := by
  obtain ⟨root, fs, -, ⟨ho, rfl⟩ | ⟨op, c, ho, -, rfl⟩⟩ := predicate?_cases h
  · rw [ho]
    rfl
  · rw [ho]
    rfl

theorem clash_iff (hp : b.predicate? t = some p) (hw : b.predicate? u = some w) :
    p.Clash t.fields u.fields w ↔ t.Clashes u := by
  rw [Predicate.Clash, Triple.Clashes, isSome_key?_of_predicate? hp, isSome_key?_of_predicate? hw]

end Builder

/-- A plain triple has a predicate, and with it a value of its own. -/
theorem Triple.Plain.exists_predicate? {t : Triple} (ht : t.Plain) (b : Builder) :
    ∃ p v, b.predicate? t = some p ∧ p.toJson? = some v := by
  obtain ⟨p, hp⟩ := b.exists_predicate? ht.fields_ne_nil fun ho => (ht.operator_ne _ ho).1 rfl
  obtain ⟨root, fs, -, ⟨ho, rfl⟩ | ⟨op, c, ho, hc, rfl⟩⟩ := Builder.predicate?_cases hp
  · exact ⟨_, _, hp, rfl⟩
  · obtain ⟨hor, hnull, hempty⟩ := ht.operator_ne op ho
    cases op with
    | compare op =>
      obtain rfl : _ = c := by simpa [Builder.condition?] using hc
      exact ⟨_, _, hp, if_pos rfl⟩
    | member op =>
      obtain rfl : _ = c := by simpa [Builder.condition?] using hc
      exact ⟨_, _, hp, if_pos rfl⟩
    | contains mode =>
      obtain rfl : _ = c := by simpa [Builder.condition?] using hc
      refine ⟨_, .string (searchText t.value), hp, ?_⟩
      simp [Predicate.toJson?, Condition.entries, Condition.key, Entries.get?_cons]
    | or => exact absurd rfl hor
    | isNull => exact absurd rfl hnull
    | isEmpty => exact absurd rfl hempty

/-! ### Runs of triples -/

namespace Builder

variable {b : Builder} {t u : Triple} {p w : Predicate} {path : List String} {x : Json}

/-- The tree of a run of triples. -/
def layers (b : Builder) (ts : List Triple) : Tree := ts.foldl b.overlay .empty

theorem layers_concat (b : Builder) (ts : List Triple) (t : Triple) :
    b.layers (ts ++ [t]) = b.overlay (b.layers ts) t := by
  rw [layers, List.foldl_append]
  rfl

/-- What a triple writes outside its output path is a mode. -/
theorem modeOf?_of_writes (hw : b.predicate? u = some w) (h : w.Writes u.fields path x)
    (hne : path ≠ b.outputPath u) : b.modeOf? u = some (path, x) := by
  obtain ⟨key, rfl, hx⟩ := h
  rw [outputPath_of_predicate? hw] at hne
  cases w with
  | equals v => simp [Predicate.entries] at hx
  | condition c =>
    have hkey : key ≠ c.key := by
      rintro rfl
      exact hne rfl
    obtain ⟨rfl, s, m, rfl, rfl⟩ := Condition.exists_mode_of_get?_entries hkey hx
    obtain ⟨root, fs, -, ⟨-, hequals⟩ | ⟨op, c, ho, hc, heq⟩⟩ := predicate?_cases hw
    · cases hequals
    · cases heq
      cases op with
      | contains mode =>
        simp only [condition?, Option.some.injEq, Condition.contains.injEq] at hc
        rw [modeOf?, ho]
        simp [hc.2]
      | compare op => simp [condition?] at hc
      | member op => simp [condition?] at hc
      | or => simp [condition?] at hc
      | isNull =>
        simp only [condition?, Option.some.injEq] at hc
        split at hc <;> cases hc
      | isEmpty =>
        simp only [condition?, Option.some.injEq] at hc
        split at hc <;> cases hc

theorem exists_condition_of_modeOf? (hf : u.fields ≠ []) (h : b.modeOf? u = some (path, x)) :
    path = u.fields ++ [Condition.modeKey] ∧ ∃ c, b.predicate? u = some (.condition c) ∧
      Entries.get? c.entries Condition.modeKey = some x := by
  rw [modeOf?] at h
  split at h
  · next mode ho =>
    obtain ⟨m, hm, hmx⟩ := Option.map_eq_some_iff.1 h
    cases hmx
    obtain ⟨root, fs, hfs⟩ := List.exists_cons_of_ne_nil hf
    refine ⟨rfl, .contains (searchText u.value) (some m), ?_, ?_⟩
    · simp [predicate?, hfs, ho, condition?, hm]
    · simp [Condition.entries, Condition.modeKey, Entries.get?_cons]
  · simp at h

/-- Where nothing was found before, a triple leaves at most a mode. -/
theorem modeOf?_of_getPath?_overlay {tree : Tree} (hw : b.predicate? u = some w)
    (hapart : Apart path (b.outputPath u)) (hnone : tree.toJson.getPath? path = none)
    (hx : (b.overlay tree u).toJson.getPath? path = some x) :
    b.modeOf? u = some (path, x) := by
  have hne : path ≠ b.outputPath u := fun e => hapart.1 (e ▸ List.prefix_rfl)
  rw [overlay_of_predicate? _ hw] at hx
  rw [outputPath_of_predicate? hw] at hapart
  exact modeOf?_of_writes hw (Tree.writes_of_getPath?_merge hapart hnone hx) hne

/-- So it does at or below the field of a predicate that it clashes with. -/
theorem modeOf?_of_clashes {tree : Tree} (hw : b.predicate? u = some w)
    (hapart : Apart path (b.outputPath u)) (hp : b.predicate? t = some p)
    (hstands : tree.predicate? (b.outputPath t) = some p) (hclash : t.Clashes u)
    (hpre : t.fields <+: path) (hx : (b.overlay tree u).toJson.getPath? path = some x) :
    b.modeOf? u = some (path, x) := by
  have hne : path ≠ b.outputPath u := fun e => hapart.1 (e ▸ List.prefix_rfl)
  rw [overlay_of_predicate? _ hw] at hx
  rw [outputPath_of_predicate? hp] at hstands
  rw [outputPath_of_predicate? hw] at hapart
  have hpq := (clash_iff hp hw).2 hclash
  exact modeOf?_of_writes hw (Tree.writes_of_clash hstands hpq hpre hapart hx) hne

/-- What a triple builds alone holds its value at its output path. -/
theorem getPath?_build? (hp : b.predicate? t = some p) (hx : p.toJson? = some x) :
    ((b.build? t).bind fun tree => tree.toJson.getPath? (b.outputPath t)) = some x := by
  rw [build?_of_predicate? hp, Option.bind_some, outputPath_of_predicate? hp]
  exact Tree.getPath?_toJson_of_predicate? (Tree.predicate?_wrap t.fields p) hx

end Builder

/-- Plain triples whose output paths all lie apart. -/
structure Independent (b : Builder) (ts : List Triple) : Prop where
  plain : ∀ t ∈ ts, t.Plain
  apart : ts.Pairwise fun t u => Apart (b.outputPath t) (b.outputPath u)

namespace Independent

variable {b : Builder} {ts us before after : List Triple} {t u : Triple} {p : Predicate}
  {path : List String} {x : Json}

theorem of_append_left (h : Independent b (ts ++ us)) : Independent b ts where
  plain t ht := h.plain t (List.mem_append_left _ ht)
  apart := (List.pairwise_append.1 h.apart).1

theorem apart_concat (h : Independent b (ts ++ [u])) (ht : t ∈ ts) :
    Apart (b.outputPath t) (b.outputPath u) :=
  (List.pairwise_append.1 h.apart).2.2 t ht u (List.mem_singleton_self u)

/-- Nothing is put where no output path leads. -/
theorem predicate?_layers_eq_none (h : Independent b ts)
    (hapart : ∀ t ∈ ts, Apart path (b.outputPath t)) : (b.layers ts).predicate? path = none := by
  induction ts using List.reverseRecOn with
  | nil => exact Tree.predicate?_empty path
  | append_singleton ts t ih =>
    obtain ⟨w, v, hw, -⟩ := (h.plain t (by simp)).exists_predicate? b
    have hlast := hapart t (by simp)
    rw [Builder.outputPath_of_predicate? hw] at hlast
    rw [Builder.layers_concat, Builder.overlay_of_predicate? _ hw]
    refine Tree.predicate?_merge_of_none hlast (ih h.of_append_left fun u hu => ?_)
    exact hapart u (List.mem_append_left _ hu)

/-- **A predicate stays as long as nothing clashes with it.** -/
theorem predicate?_layers (h : Independent b (before ++ t :: after))
    (hp : b.predicate? t = some p) (hclash : ∀ u ∈ after, ¬ t.Clashes u) :
    (b.layers (before ++ t :: after)).predicate? (b.outputPath t) = some p := by
  have hpath := Builder.outputPath_of_predicate? hp
  induction after using List.reverseRecOn with
  | nil =>
    rw [Builder.layers_concat, Builder.overlay_of_predicate? _ hp, hpath]
    refine Tree.predicate?_merge_self (h.plain t (by simp)).safe ?_
    rw [← hpath]
    exact h.of_append_left.predicate?_layers_eq_none fun u hu => (h.apart_concat hu).symm
  | append_singleton after u ih =>
    rw [← List.cons_append, ← List.append_assoc] at h ⊢
    obtain ⟨w, v, hw, -⟩ := (h.plain u (by simp)).exists_predicate? b
    have hold := ih h.of_append_left fun w hw => hclash w (List.mem_append_left _ hw)
    have hapart := h.apart_concat (t := t) (by simp)
    rw [hpath, Builder.outputPath_of_predicate? hw] at hapart
    rw [hpath] at hold
    rw [Builder.layers_concat, Builder.overlay_of_predicate? _ hw, hpath]
    refine Tree.predicate?_merge_of_some (h.plain t (by simp)).safe hapart ?_ hold
    rw [Builder.clash_iff hp hw]
    exact hclash u (by simp)

/-- The mode of a substring test is found as long as nothing clashes with the test. -/
theorem getPath?_layers_of_modeOf? (h : Independent b (before ++ t :: after))
    (hmode : b.modeOf? t = some (path, x)) (hclash : ∀ u ∈ after, ¬ t.Clashes u) :
    (b.layers (before ++ t :: after)).toJson.getPath? path = some x := by
  have hf : t.fields ≠ [] := (h.plain t (by simp)).fields_ne_nil
  obtain ⟨rfl, c, hc, hcx⟩ := Builder.exists_condition_of_modeOf? hf hmode
  have hstands := h.predicate?_layers hc hclash
  rw [Builder.outputPath_of_predicate? hc] at hstands
  exact Tree.getPath?_toJson_of_condition hstands hcx

/-- **After a clash nothing is found**, but for the mode of a substring test that nothing clashes
with in turn. -/
theorem exists_modeOf?_of_clashes (h : Independent b (before ++ t :: after))
    (hclash : ∃ u ∈ after, t.Clashes u)
    (hx : (b.layers (before ++ t :: after)).toJson.getPath? (b.outputPath t) = some x) :
    ∃ mid u rest, after = mid ++ u :: rest ∧ b.modeOf? u = some (b.outputPath t, x) ∧
      ∀ w ∈ rest, ¬ u.Clashes w := by
  induction after using List.reverseRecOn generalizing x with
  | nil => simp at hclash
  | append_singleton after u ih =>
    have hall := h
    rw [← List.cons_append, ← List.append_assoc] at h hx
    rw [Builder.layers_concat] at hx
    obtain ⟨p, -, hp, -⟩ := (h.plain t (by simp)).exists_predicate? b
    obtain ⟨w, -, hw, -⟩ := (h.plain u (by simp)).exists_predicate? b
    have hapart : Apart (b.outputPath t) (b.outputPath u) := h.apart_concat (by simp)
    have hlast : b.modeOf? u = some (b.outputPath t, x) → ∃ mid v rest,
        after ++ [u] = mid ++ v :: rest ∧ b.modeOf? v = some (b.outputPath t, x) ∧
          ∀ w ∈ rest, ¬ v.Clashes w := fun hu => ⟨after, u, [], rfl, hu, by simp⟩
    by_cases hearlier : ∃ v ∈ after, t.Clashes v
    · cases hy : (b.layers (before ++ t :: after)).toJson.getPath? (b.outputPath t) with
      | none => exact hlast (Builder.modeOf?_of_getPath?_overlay hw hapart hy hx)
      | some y =>
        obtain ⟨mid, v, rest, rfl, hmode, hrest⟩ := ih h.of_append_left hearlier hy
        have hpart : before ++ t :: (mid ++ v :: rest) = (before ++ t :: mid) ++ v :: rest := by
          simp
        have hvf : v.fields ≠ [] := (h.plain v (by simp)).fields_ne_nil
        obtain ⟨hpath, c, hc, -⟩ := Builder.exists_condition_of_modeOf? hvf hmode
        by_cases hvu : v.Clashes u
        · have hold := h.of_append_left
          rw [hpart] at hold hx
          have hpre : v.fields <+: b.outputPath t := hpath ▸ List.prefix_append _ _
          exact hlast (Builder.modeOf?_of_clashes hw hapart hc (hold.predicate?_layers hc hrest)
            hvu hpre hx)
        · have hrest' : ∀ w ∈ rest ++ [u], ¬ v.Clashes w := by
            simpa [or_imp, forall_and] using ⟨hrest, hvu⟩
          have heq : before ++ t :: (mid ++ v :: rest ++ [u]) =
              (before ++ t :: mid) ++ v :: (rest ++ [u]) := by simp
          rw [heq] at hall
          have hfound := hall.getPath?_layers_of_modeOf? hmode hrest'
          rw [← heq, ← List.cons_append, ← List.append_assoc, Builder.layers_concat, hx] at hfound
          obtain rfl : x = y := Option.some.inj hfound
          exact ⟨mid, v, rest ++ [u], by simp, hmode, hrest'⟩
    · have hstands := h.of_append_left.predicate?_layers hp fun v hv hc => hearlier ⟨v, hv, hc⟩
      have htu : t.Clashes u := by
        obtain ⟨v, hv, hc⟩ := hclash
        rcases List.mem_append.1 hv with hv | hv
        · exact absurd ⟨v, hv, hc⟩ hearlier
        · exact List.mem_singleton.1 hv ▸ hc
      have hpre : t.fields <+: b.outputPath t := List.prefix_append _ _
      exact hlast (Builder.modeOf?_of_clashes hw hapart hp hstands htu hpre hx)

end Independent

/-- **When a predicate is found in the compiled filter.** Among plain parameters whose output paths
lie apart, the value that a triple puts at its output path is found there at the end exactly if no
later triple clashes with it, or if a later substring test happens to leave its mode there, with the
very same value. -/
theorem getPath?_compile_eq_some_iff (c : Compiler) (params : Params)
    (h : Independent c.toBuilder (c.flattened params)) {before after : List Triple} {t : Triple}
    (ht : c.flattened params = before ++ t :: after) :
    ∃ v, ((c.build? t).bind fun tree => tree.toJson.getPath? (c.outputPath t)) = some v ∧
      ((c.compile params).toJson.getPath? (c.outputPath t) = some v ↔
        (∀ u ∈ after, ¬ t.Clashes u) ∨
          ∃ mid u rest, after = mid ++ u :: rest ∧ c.modeOf? u = some (c.outputPath t, v) ∧
            ∀ w ∈ rest, ¬ u.Clashes w) := by
  rw [ht] at h
  obtain ⟨p, v, hp, hv⟩ := (h.plain t (by simp)).exists_predicate? c.toBuilder
  refine ⟨v, c.getPath?_build? hp hv, ?_⟩
  rw [c.compile_eq_foldl, ht]
  constructor
  · intro hx
    by_cases hclash : ∃ u ∈ after, t.Clashes u
    · exact Or.inr (h.exists_modeOf?_of_clashes hclash hx)
    · exact Or.inl fun u hu hc => hclash ⟨u, hu, hc⟩
  · rintro (hclash | ⟨mid, u, rest, rfl, hmode, hrest⟩)
    · have hstands := h.predicate?_layers hp hclash
      rw [Builder.outputPath_of_predicate? hp] at hstands ⊢
      exact Tree.getPath?_toJson_of_predicate? hstands hv
    · have hsplit : before ++ t :: (mid ++ u :: rest) = (before ++ t :: mid) ++ u :: rest := by simp
      rw [hsplit] at h ⊢
      exact h.getPath?_layers_of_modeOf? hmode hrest

/-- Two bounds on one field are both kept. -/
theorem getPath?_compile_age_range :
    ((default : Compiler).compile
      [("age__gt", .string "5"), ("age__lt", .string "9")]).toJson.getPath? ["age", "gt"] =
        some (.string "5") := by
  have hts : (default : Compiler).flattened [("age__gt", .string "5"), ("age__lt", .string "9")] =
      [] ++ ⟨["age"], some (.compare .gt), .string "5"⟩ ::
        [⟨["age"], some (.compare .lt), .string "9"⟩] := by
    cbv
  have hind : Independent (default : Compiler).toBuilder
      ((default : Compiler).flattened [("age__gt", .string "5"), ("age__lt", .string "9")]) := by
    rw [hts]
    refine ⟨?_, ?_⟩
    · intro t ht
      simp only [List.nil_append, List.mem_cons, List.not_mem_nil, or_false] at ht
      rcases ht with rfl | rfl
      · exact ⟨by decide, by decide, by decide⟩
      · exact ⟨by decide, by decide, by decide⟩
    · simp [Apart, Builder.outputPath, Builder.predicate?, Builder.condition?, Predicate.key?,
        Condition.key, List.cons_prefix_cons]
      decide
  obtain ⟨v, hv, hiff⟩ := getPath?_compile_eq_some_iff default _ hind hts
  have halone : ((default : Compiler).build? ⟨["age"], some (.compare .gt), .string "5"⟩).bind
      (fun tree => tree.toJson.getPath? ["age", "gt"]) = some (.string "5") := by
    cbv
  obtain rfl : v = .string "5" := Option.some.inj (hv.symm.trans halone)
  refine hiff.2 (Or.inl fun u hu => ?_)
  obtain rfl : u = ⟨["age"], some (.compare .lt), .string "9"⟩ := List.mem_singleton.1 hu
  simp [Triple.Clashes]

/-- A condition is lost to a branch below its field. -/
theorem getPath?_compile_later_branch :
    ((default : Compiler).compile
      [("age__gt", .string "5"), ("age__foo", .string "1")]).toJson.getPath? ["age", "gt"] =
        none := by
  cbv

end Sieve.Filter
