import Mathlib.Data.List.Forall2
import Sieve.Files.Place
import Sieve.Proofs.Json.Lookup

/-!
# Listings of directories

A directory lists its entries in some order, and nobody may rely on which. Trees are *relisted* if
they differ in these orders only, at any depth: no directory lists a name twice, and the directories
that stand at one place list the same names.

A path is followed by names, so it leads to relisted places in relisted trees, and where it leads
nowhere, it does so for the same reason. The places remember the directories above them and write
back into these when they go up, so that those have to be relisted, too.

## Main definitions

* `Node.Relisted` — trees that differ in the order of listings
* `Place.Relisted` — places in such trees
* `SameOutcome` — the same failure, or related results

## Main results

* `Entries.rel_get?_of_perm`, `Entries.get?_eq_of_perm` — look-ups in another order
* `Node.Relisted.of_forall₂_of_perm` — entries that are relisted and put in another order
* `Node.Relisted.rel_get?` — the entries of one name are relisted
* `Node.Relisted.insert` — and stay so when an entry is written
* `Place.Relisted.enter`, `Place.sameOutcome_follow` — a piece of a path, and a whole path
* `Node.Relisted.locate` — what a path leads to
-/

namespace Sieve

/-! ### Entries with the same keys -/

namespace Entries

variable {α β : Type} {R : α → β → Prop} {es : Entries α} {fs : Entries β}

/-- A key with a value has one in any entries with the same keys. -/
theorem exists_get?_of_perm (hkeys : (keys es).Perm (keys fs)) {key : String} {v : α}
    (h : get? es key = some v) : ∃ w, get? fs key = some w :=
  exists_get?_of_mem_keys (hkeys.mem_iff.1 (mem_keys_of_get? h))

/-- Entries with the same keys are related key by key, if the values of each key are. -/
theorem rel_get?_of_perm (hkeys : (keys es).Perm (keys fs))
    (h : ∀ key v w, get? es key = some v → get? fs key = some w → R v w) (key : String) :
    Option.Rel R (get? es key) (get? fs key) := by
  cases hes : get? es key with
  | none =>
    have hfs : get? fs key = none := by
      rw [get?_eq_none_iff] at hes ⊢
      exact fun hmem => hes (hkeys.mem_iff.2 hmem)
    rw [hfs]
    exact .none
  | some v =>
    obtain ⟨w, hfs⟩ := exists_get?_of_perm hkeys hes
    rw [hfs]
    exact .some (h key v w hes hfs)

/-- Entries that are related key by key have the same keys. -/
theorem perm_keys_of_rel_get? (hes : (keys es).Nodup) (hfs : (keys fs).Nodup)
    (h : ∀ key, Option.Rel R (get? es key) (get? fs key)) : (keys es).Perm (keys fs) := by
  refine (List.perm_ext_iff_of_nodup hes hfs).2 fun key => ?_
  rw [← not_iff_not, ← get?_eq_none_iff, ← get?_eq_none_iff]
  have hrel := h key
  generalize get? es key = found at hrel ⊢
  generalize get? fs key = found' at hrel ⊢
  cases hrel <;> simp

/-- Entries that are related one by one are related key by key. -/
theorem rel_get?_of_forall₂
    (h : List.Forall₂ (fun e e' => e.1 = e'.1 ∧ R e.2 e'.2) es fs) (key : String) :
    Option.Rel R (get? es key) (get? fs key) := by
  induction h with
  | nil => exact .none
  | @cons e e' es fs he _ ih =>
    obtain ⟨k, v⟩ := e
    obtain ⟨k', w⟩ := e'
    obtain ⟨rfl, hvalue⟩ := he
    rw [get?_cons, get?_cons]
    split
    · exact .some hvalue
    · exact ih

/-- Look-ups do not hang on the order of entries. -/
theorem get?_eq_of_perm {es' : Entries α} (hes : (keys es).Nodup) (hperm : es.Perm es')
    (key : String) : get? es key = get? es' key := by
  have hes' : (keys es').Nodup := (hperm.map Prod.fst).nodup_iff.1 hes
  ext v
  rw [← mem_iff_get? hes, ← mem_iff_get? hes']
  exact hperm.mem_iff

end Entries

namespace Files

/-! ### Relisted trees -/

namespace Node

/-- The trees differ in the order in which directories list their entries, and in nothing else. No
directory lists a name twice. -/
inductive Relisted : Node → Node → Prop where
  | file (text : Option String) : Relisted (.file text) (.file text)
  | directory {es fs : Entries Node} (distinct : (Entries.keys es).Nodup)
      (names : (Entries.keys es).Perm (Entries.keys fs))
      (nodes : ∀ name node node', Entries.get? es name = some node →
        Entries.get? fs name = some node' → Relisted node node') :
    Relisted (.directory es) (.directory fs)

namespace Relisted

variable {n m : Node} {es fs : Entries Node}

theorem distinct (h : Relisted (.directory es) (.directory fs)) : (Entries.keys es).Nodup := by
  cases h with
  | directory distinct _ _ => exact distinct

/-- A name leads to relisted nodes, or to none in both directories. -/
theorem rel_get? (h : Relisted (.directory es) (.directory fs)) (name : String) :
    Option.Rel Relisted (Entries.get? es name) (Entries.get? fs name) := by
  cases h with
  | directory _ names nodes => exact Entries.rel_get?_of_perm names nodes name

/-- Directories without repeated names are relisted if each name leads to relisted nodes. -/
theorem of_rel_get? (hes : (Entries.keys es).Nodup) (hfs : (Entries.keys fs).Nodup)
    (h : ∀ name, Option.Rel Relisted (Entries.get? es name) (Entries.get? fs name)) :
    Relisted (.directory es) (.directory fs) := by
  refine .directory hes (Entries.perm_keys_of_rel_get? hes hfs h) ?_
  intro name node node' hnode hnode'
  have hrel := h name
  rwa [hnode, hnode', Option.rel_some_some] at hrel

/-- **The entries may be relisted one by one and then put in any order.** -/
theorem of_forall₂_of_perm {es' : Entries Node} (hes : (Entries.keys es).Nodup)
    (hnodes : List.Forall₂ (fun e e' => e.1 = e'.1 ∧ Relisted e.2 e'.2) es es')
    (hperm : es'.Perm fs) : Relisted (.directory es) (.directory fs) := by
  have hkeys : List.Forall₂ Eq (Entries.keys es) (Entries.keys es') := by
    rw [Entries.keys, Entries.keys, List.forall₂_map_left_iff, List.forall₂_map_right_iff]
    exact hnodes.imp fun _ _ h => h.1
  rw [List.forall₂_eq_eq_eq] at hkeys
  have hes' : (Entries.keys es').Nodup := hkeys ▸ hes
  have hfs : (Entries.keys fs).Nodup := (hperm.map Prod.fst).nodup_iff.1 hes'
  refine of_rel_get? hes hfs fun name => ?_
  rw [← Entries.get?_eq_of_perm hes' hperm]
  exact Entries.rel_get?_of_forall₂ hnodes name

theorem symm (h : n.Relisted m) : m.Relisted n := by
  induction h with
  | file text => exact .file text
  | directory distinct names _ ih =>
    exact .directory (names.nodup_iff.1 distinct) names.symm
      fun name node node' hnode hnode' => ih name node' node hnode' hnode

/-- **Writing an entry** into relisted directories leaves them relisted. -/
theorem insert (h : Relisted (.directory es) (.directory fs)) (hnode : n.Relisted m)
    (name : String) :
    Relisted (.directory (es.insert name n)) (.directory (fs.insert name m)) := by
  refine of_rel_get? (Entries.nodup_keys_insert n h.distinct)
    (Entries.nodup_keys_insert m h.symm.distinct) fun other => ?_
  by_cases hother : other = name
  · subst hother
    rw [Entries.get?_insert_self, Entries.get?_insert_self]
    exact .some hnode
  · rw [Entries.get?_insert_of_ne n hother, Entries.get?_insert_of_ne m hother]
    exact h.rel_get? other

theorem singleton (h : n.Relisted m) (name : String) :
    Relisted (.directory [(name, n)]) (.directory [(name, m)]) := by
  have hempty : Relisted (.directory []) (.directory []) :=
    of_rel_get? List.nodup_nil List.nodup_nil fun _ => .none
  exact hempty.insert h name

end Relisted

end Node

/-! ### Outcomes -/

/-- Two computations that fail do so for the same reason; if one gives a result, so does the other,
and the results are related. -/
inductive SameOutcome {ε α β : Type} (R : α → β → Prop) : Except ε α → Except ε β → Prop where
  | error (e : ε) : SameOutcome R (.error e) (.error e)
  | ok {a : α} {b : β} (h : R a b) : SameOutcome R (.ok a) (.ok b)

namespace SameOutcome

variable {ε α β α' β' : Type} {R : α → β → Prop} {x : Except ε α} {y : Except ε β}

theorem exists_eq_ok {a : α} (h : SameOutcome R (.ok a) y) : ∃ b, y = .ok b ∧ R a b := by
  cases h with
  | ok h => exact ⟨_, rfl, h⟩

theorem map {S : α' → β' → Prop} {f : α → α'} {g : β → β'} (h : SameOutcome R x y)
    (hfg : ∀ a b, R a b → S (f a) (g b)) : SameOutcome S (x.map f) (y.map g) := by
  cases h with
  | error e => exact .error e
  | ok h => exact .ok (hfg _ _ h)

theorem getD {found : Option α} {found' : Option β} (h : Option.Rel R found found') (e : ε) :
    SameOutcome R ((found.map .ok).getD (.error e)) ((found'.map .ok).getD (.error e)) := by
  cases h with
  | none => exact .error e
  | some h => exact .ok h

/-- One step keeps related states related, so a run does. -/
theorem foldlM {γ : Type} {f : α → γ → Except ε α} {g : β → γ → Except ε β}
    (hstep : ∀ a b c, R a b → SameOutcome R (f a c) (g b c)) (cs : List γ) {a : α} {b : β}
    (h : R a b) : SameOutcome R (cs.foldlM f a) (cs.foldlM g b) := by
  induction cs generalizing a b with
  | nil => exact .ok h
  | cons c cs ih =>
    rw [List.foldlM_cons, List.foldlM_cons]
    have hnext := hstep a b c h
    generalize f a c = next at hnext ⊢
    generalize g b c = next' at hnext ⊢
    cases hnext with
    | error e => exact .error e
    | ok h => exact ih h

end SameOutcome

/-! ### Places -/

namespace Place

/-- The places are relisted, and so are the directories that lead to them, by the same names. -/
structure Relisted (p q : Place) : Prop where
  node : p.node.Relisted q.node
  above : List.Forall₂ (fun d d' => d.1 = d'.1 ∧ Node.Relisted (.directory d.2) (.directory d'.2))
    p.above q.above

variable {p q : Place}

theorem relisted_start {root root' : Node} (h : root.Relisted root') (path : String) :
    (start root path).Relisted (start root' path) := by
  have houtermost : Node.Relisted (.directory [("", root)]) (.directory [("", root')]) :=
    h.singleton ""
  rw [start, start]
  split
  · exact ⟨houtermost, .nil⟩
  · exact ⟨h, .cons ⟨rfl, houtermost⟩ .nil⟩

/-- Going up writes what stands at the place into the directory above. -/
theorem Relisted.up (h : p.Relisted q) : p.up.Relisted q.up := by
  obtain ⟨node, above⟩ := p
  obtain ⟨node', above'⟩ := q
  obtain ⟨hnode, habove⟩ := h
  cases habove with
  | nil => exact ⟨hnode, .nil⟩
  | @cons d d' _ _ hd habove =>
    obtain ⟨name, es⟩ := d
    obtain ⟨name', fs⟩ := d'
    obtain ⟨rfl, hentries⟩ := hd
    exact ⟨hentries.insert hnode name, habove⟩

/-- **One piece of a path** leads to relisted places, or fails alike. -/
theorem Relisted.enter (h : p.Relisted q) (e : ReadError) (piece : String) :
    SameOutcome Relisted (p.enter (.error e) piece) (q.enter (.error e) piece) := by
  obtain ⟨node, above⟩ := p
  obtain ⟨node', above'⟩ := q
  have hnode : node.Relisted node' := h.node
  cases hnode with
  | file text => exact .error ReadError.notADirectory
  | directory distinct names nodes =>
    have hentries := Node.Relisted.directory distinct names nodes
    rw [Place.enter, Place.enter]
    dsimp only
    split
    · exact .ok h
    · split
      · exact .ok h.up
      · split
        · exact .error ReadError.nameTooLong
        · refine (SameOutcome.getD (hentries.rel_get? piece) e).map fun n n' hn => ?_
          exact ⟨hn, .cons ⟨rfl, hentries⟩ h.above⟩

/-- **A whole path** leads to relisted places in relisted trees, or fails alike. -/
theorem sameOutcome_follow {root root' : Node} (h : root.Relisted root') (e : ReadError)
    (path : String) :
    SameOutcome Relisted (follow (.error e) root path) (follow (.error e) root' path) := by
  rw [follow, follow]
  cases pieces path with
  | error e => exact .error e
  | ok ps =>
    exact SameOutcome.foldlM (fun _ _ piece hp => hp.enter e piece) ps (relisted_start h path)

end Place

/-- **What a path leads to** does not hang on the order of listings, but for its own listings. -/
theorem Node.Relisted.locate {root root' : Node} (h : root.Relisted root') (path : String) :
    SameOutcome Node.Relisted (root.locate path) (root'.locate path) :=
  (Place.sameOutcome_follow h .missing path).map fun _ _ h => h.node

end Files

end Sieve
