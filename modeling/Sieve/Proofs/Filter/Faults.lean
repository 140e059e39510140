import Sieve.Proofs.Filter.Overlay

/-!
# Faults of a compilation

Compiling notes a fault where it meets one and goes on with the next triple. A triple has at most
one: without a path it has no tree, and with one it has a tree, so that only the direction of an
ordering is left to find fault with. The faults of a compilation are therefore those of its bad
triples, in order, and they do not touch its tree.

## Main definitions

* `Triple.isBad`, `Triple.fault` — the triples that a strict compiler does not take, and why

## Main results

* `Builder.build?_eq_none_iff` — only a triple without a path has no tree
* `Compiler.add_eq`, `Compiler.compilation_eq` — one triple, and all of them
* `Compiler.compileStrictly_first_fault` — what strict and lenient compiling answer
-/

namespace Sieve.Filter

/-- The triple has no path, or it orders by a field and gives no direction of sorting. -/
def Triple.isBad (t : Triple) : Bool :=
  match t.fields, t.operator with
  | [], _ => true
  | [root, _], none => root == orderKey && !isSortDirection t.value
  | _, _ => false

/-- The fault of a bad triple that came from `key`. -/
def Triple.fault (key : String) (t : Triple) : Error :=
  if t.fields = [] then .emptyPath key else .sortDirection key

/-! ### One triple -/

/-- Only a triple without a path has no tree. -/
theorem Builder.build?_eq_none_iff {b : Builder} {t : Triple} :
    b.build? t = none ↔ t.fields = [] := by
  by_cases hf : t.fields = []
  · simp [build?, hf]
  · by_cases ho : t.operator = some .or
    · simp [b.build?_of_or hf ho, hf]
    · obtain ⟨p, hp⟩ := b.exists_predicate? hf ho
      simp [build?_of_predicate? hp, hf]

theorem Builder.exists_build? (b : Builder) {t : Triple} (hf : t.fields ≠ []) :
    ∃ subtree, b.build? t = some subtree :=
  Option.ne_none_iff_exists'.1 (mt build?_eq_none_iff.1 hf)

/-- Only an ordering is found fault with for its value. -/
theorem Triple.isBad_of_fields_ne_nil {t : Triple} (hf : t.fields ≠ []) :
    t.isBad = (t.isOrdering && !isSortDirection t.value) := by
  obtain ⟨fields, operator, value⟩ := t
  match fields, operator with
  | [], _ => exact absurd rfl hf
  | [_], none => simp [isBad, isOrdering]
  | [root, field], none => simp [isBad, isOrdering]
  | _ :: _ :: _ :: _, none => simp [isBad, isOrdering]
  | [_], some _ => simp [isBad, isOrdering]
  | [_, _], some _ => simp [isBad, isOrdering]
  | _ :: _ :: _ :: _, some _ => simp [isBad, isOrdering]

namespace Compiler

variable (c : Compiler) (params : Params)

/-- **One triple.** Its tree is laid over what is there, and its fault is noted if it is bad. -/
theorem add_eq (r : Compilation) (key : String) (t : Triple) :
    c.add r key t =
      ⟨c.overlay r.tree t, r.faults ++ if t.isBad then [t.fault key] else []⟩ := by
  by_cases hf : t.fields = []
  · have hordering : checkOrdering key t = [] := by simp [checkOrdering, Triple.isOrdering, hf]
    have hbad : t.isBad = true := by simp [Triple.isBad, hf]
    rw [add, Builder.build?_eq_none_iff.2 hf, Builder.overlay_of_fields_eq_nil _ hf, hordering,
      hbad, Triple.fault, if_pos hf, List.append_nil]
    rfl
  · obtain ⟨subtree, hbuild⟩ := c.exists_build? hf
    rw [add, hbuild, Builder.overlay, hbuild, checkOrdering, Triple.isBad_of_fields_ne_nil hf,
      Triple.fault, if_neg hf]

theorem faults_foldl_add (ts : List (String × Triple)) (r : Compilation) :
    (ts.foldl (fun r p => c.add r p.1 p.2) r).faults =
      r.faults ++ (ts.filter fun p => p.2.isBad).map fun p => p.2.fault p.1 := by
  induction ts generalizing r with
  | nil => simp
  | cons p ts ih =>
    rw [List.foldl_cons, ih, add_eq, List.filter_cons]
    cases p.2.isBad <;> simp

/-- **All triples.** The tree is that of the triples laid over one another, and the faults are those
of the bad ones. -/
theorem compilation_eq :
    c.compilation params = ⟨(c.flattened params).foldl c.overlay .empty,
      ((c.keyedTriples params).filter fun p => p.2.isBad).map fun p => p.2.fault p.1⟩ := by
  have hfaults : (c.compilation params).faults = _ := c.faults_foldl_add _ _
  rw [List.nil_append] at hfaults
  rw [← hfaults, ← c.compile_eq_foldl, compile]

/-! ### The trees of the triples that have a path -/

/-- Triples without a path can be left out, and every other one has a tree. -/
theorem exists_subtrees (b : Builder) (ts : List Triple) : ∃ subtrees : List Tree,
    (ts.filter fun t => !t.fields.isEmpty).map b.build? = subtrees.map some ∧
      ∀ tree, ts.foldl b.overlay tree = subtrees.foldl Tree.merge tree := by
  induction ts with
  | nil => exact ⟨[], rfl, fun _ => rfl⟩
  | cons t ts ih =>
    obtain ⟨subtrees, hmap, hfold⟩ := ih
    by_cases hf : t.fields = []
    · refine ⟨subtrees, by simpa [hf] using hmap, fun tree => ?_⟩
      rw [List.foldl_cons, Builder.overlay_of_fields_eq_nil tree hf, hfold]
    · obtain ⟨subtree, hbuild⟩ := b.exists_build? hf
      refine ⟨subtree :: subtrees, by simp [hf, hmap, hbuild], fun tree => ?_⟩
      rw [List.foldl_cons, hfold, Builder.overlay, hbuild, List.foldl_cons]

/-- **What strict and lenient compiling answer.** A strict compiler fails exactly if there is a bad
triple, with the fault of the first one: it names the key that the triple came from, and its code
says whether the path is empty or the direction of sorting is none. In every other case the answer
is the lenient one. That is always the trees of exactly the triples with a path, merged in order. -/
theorem compileStrictly_first_fault :
    (c.compileStrictly params =
      match (c.keyedTriples params).find? fun p => p.2.isBad with
      | some (key, t) => if c.strict then .error (t.fault key) else .ok (c.compile params)
      | none => .ok (c.compile params)) ∧
    (∀ (key : String) (t : Triple), (t.fault key).key? = some key ∧
      (t.fault key).code = if t.fields = [] then "Q1003" else "Q5003") ∧
    ∃ subtrees : List Tree,
      ((c.flattened params).filter fun t => !t.fields.isEmpty).map c.build? =
        subtrees.map some ∧
      c.compile params = subtrees.foldl Tree.merge .empty := by
  refine ⟨?_, fun key t => ?_, ?_⟩
  · rw [compileStrictly, compile, compilation_eq, ← List.head?_filter]
    cases hbad : (c.keyedTriples params).filter fun p => p.2.isBad with
    | nil => rfl
    | cons p ps => rfl
  · rw [Triple.fault]
    split <;> exact ⟨rfl, rfl⟩
  · obtain ⟨subtrees, hmap, hfold⟩ := exists_subtrees c.toBuilder (c.flattened params)
    exact ⟨subtrees, hmap, by rw [compile_eq_foldl, hfold]⟩

end Compiler

end Sieve.Filter
