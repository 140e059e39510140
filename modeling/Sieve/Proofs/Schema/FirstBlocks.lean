import Mathlib.Data.List.Basic
import Sieve.Schema.Document

/-!
# Names are taken once

Models and enums are added to a document in turn, and one whose name is taken is left out. So a
document is read off the first blocks of their names, in the order in which the names come first.
Blocks without a name in common all become part of it.

## Main definitions

* `firstOfNames` — the blocks that no block before them shares a name with
* `addNew` — adding to a list in which names are taken once

## Main results

* `map_name_firstOfNames`, `find?_of_mem_firstOfNames` — each name once, and for it the first block
* `Document.ofBlocks_eq` — what a document is read off
* `Document.models_parse`, `Document.enums_parse` — the models and enums of a text, block by block
-/

namespace Sieve.Schema

/-! ### First blocks -/

/-- The blocks that no block before them shares a name with. -/
def firstOfNames : List Block → List Block
  | [] => []
  | b :: bs => b :: (firstOfNames bs).filter fun c => c.name != b.name

theorem firstOfNames_sublist (bs : List Block) : (firstOfNames bs).Sublist bs := by
  induction bs with
  | nil => exact List.Sublist.refl []
  | cons b bs ih => exact (List.filter_sublist.trans ih).cons_cons b

theorem firstOfNames_of_nodup {bs : List Block} (h : (bs.map Block.name).Nodup) :
    firstOfNames bs = bs := by
  induction bs with
  | nil => rfl
  | cons b bs ih =>
    obtain ⟨hb, hbs⟩ := List.nodup_cons.1 h
    have hne : ∀ c ∈ bs, (c.name != b.name) = true := by
      intro c hc
      rw [bne_iff_ne]
      exact fun e => hb (e ▸ List.mem_map_of_mem hc)
    rw [firstOfNames, ih hbs, List.filter_eq_self.2 hne]

/-- The names that come first, those that `p` leaves out apart. -/
theorem map_name_filter_firstOfNames (p : String → Bool) (bs : List Block) :
    ((firstOfNames bs).filter fun b => p b.name).map Block.name =
      ((bs.map Block.name).filter p).eraseDups := by
  induction bs generalizing p with
  | nil => rfl
  | cons b bs ih =>
    have hrest := ih fun name => p name && name != b.name
    rw [firstOfNames, List.map_cons, List.filter_cons, List.filter_cons, List.filter_filter]
    cases hp : p b.name with
    | true =>
      have hfilter : ((bs.map Block.name).filter p).filter (fun name => !name == b.name) =
          (bs.map Block.name).filter fun name => p name && name != b.name := by
        rw [List.filter_filter]
        exact List.filter_congr fun name _ => Bool.and_comm _ _
      simp only [if_true, List.map_cons]
      rw [hrest, List.eraseDups_cons, hfilter]
    | false =>
      -- the name of the block is left out anyway
      have hfilter : ∀ c : Block, (p c.name && c.name != b.name) = p c.name := by
        intro c
        by_cases hc : c.name = b.name
        · rw [hc, hp]
          rfl
        · simp [hc]
      simp only [Bool.false_eq_true, if_false, hfilter]
      exact ih p

/-- **Each name comes once**, in the order in which the names come first. -/
theorem map_name_firstOfNames (bs : List Block) :
    (firstOfNames bs).map Block.name = (bs.map Block.name).eraseDups := by
  simpa using map_name_filter_firstOfNames (fun _ => true) bs

/-- **A block that is kept is the first of its name.** -/
theorem find?_of_mem_firstOfNames {bs : List Block} {b : Block} (h : b ∈ firstOfNames bs) :
    bs.find? (fun c => c.name == b.name) = some b := by
  induction bs with
  | nil => cases h
  | cons c bs ih =>
    rcases List.mem_cons.1 h with rfl | h
    · exact List.find?_cons_of_pos (beq_self_eq_true _)
    · obtain ⟨hmem, hne⟩ := List.mem_filter.1 h
      have hskip : (c.name == b.name) = false :=
        beq_eq_false_iff_ne.2 fun e => bne_iff_ne.1 hne e.symm
      rw [List.find?_cons, hskip, ih hmem]

/-! ### Adding in turn -/

section

variable {α : Type} {name : α → String}

/-- Puts an element at the end, unless its name is taken. -/
def addNew (name : α → String) (xs : List α) (x : α) : List α :=
  if (xs.find? fun y => name y == name x).isSome then xs else xs ++ [x]

/-- What is read off blocks and added in turn comes from the first blocks of the names that are not
taken. -/
theorem foldl_addNew {read : Block → α} (hread : ∀ b, name (read b) = b.name) (bs : List Block)
    (xs : List α) : (bs.map read).foldl (addNew name) xs =
      xs ++ ((firstOfNames bs).filter fun b => (xs.find? fun y => name y == b.name).isNone).map
        read := by
  induction bs generalizing xs with
  | nil => simp [firstOfNames]
  | cons b bs ih =>
    rw [List.map_cons, List.foldl_cons, ih, firstOfNames, List.filter_cons, List.filter_filter,
      addNew, hread]
    cases hb : xs.find? fun y => name y == b.name with
    | some x =>
      -- the name is taken, so that leaving out the blocks of this name again changes nothing
      have hfilter : ∀ c : Block, ((xs.find? fun y => name y == c.name).isNone &&
          c.name != b.name) = (xs.find? fun y => name y == c.name).isNone := by
        intro c
        by_cases hc : c.name = b.name
        · rw [hc, hb]
          rfl
        · simp [hc]
      simp [hfilter]
    | none =>
      have hfilter : ∀ c : Block, ((xs ++ [read b]).find? fun y => name y == c.name).isNone =
          ((xs.find? fun y => name y == c.name).isNone && c.name != b.name) := by
        intro c
        rw [List.find?_append, Option.isNone_or, List.find?_singleton, hread]
        by_cases hc : c.name = b.name
        · simp [hc]
        · simp [hc, Ne.symm hc]
      simp only [Option.isSome_none, Bool.false_eq_true, if_false, hfilter, Option.isNone_none,
        if_true, List.map_cons, List.append_assoc, List.singleton_append]

end

namespace Document

theorem foldl_addEnum (es : List Enum) (d : Document) :
    es.foldl addEnum d = ⟨d.models, es.foldl (addNew Enum.name) d.enums⟩ := by
  induction es generalizing d with
  | nil => rfl
  | cons e es ih =>
    rw [List.foldl_cons, List.foldl_cons, ih, addEnum, addNew, enum?]
    split <;> rfl

theorem foldl_addModel (ms : List Model) (d : Document) :
    ms.foldl addModel d = ⟨ms.foldl (addNew Model.name) d.models, d.enums⟩ := by
  induction ms generalizing d with
  | nil => rfl
  | cons m ms ih =>
    rw [List.foldl_cons, List.foldl_cons, ih, addModel, addNew, model?]
    split <;> rfl

/-- **A document is read off its blocks, the first of each name.** -/
theorem ofBlocks_eq (names : Names) (bs : Blocks) : ofBlocks names bs =
    ⟨(firstOfNames bs.models).map (Model.ofBlock names),
      (firstOfNames bs.enums).map Enum.ofBlock⟩ := by
  have hmodel : ∀ b, (Model.ofBlock names b).name = b.name := fun _ => rfl
  have henum : ∀ b, (Enum.ofBlock b).name = b.name := fun _ => rfl
  rw [ofBlocks, foldl_addModel, foldl_addEnum, foldl_addNew hmodel, foldl_addNew henum]
  simp [empty]

/-- Blocks with distinct names all become part of the document. -/
theorem ofBlocks_of_nodup {names : Names} {bs : Blocks} (hm : (bs.models.map Block.name).Nodup)
    (he : (bs.enums.map Block.name).Nodup) :
    ofBlocks names bs = ⟨bs.models.map (Model.ofBlock names), bs.enums.map Enum.ofBlock⟩ := by
  rw [ofBlocks_eq, firstOfNames_of_nodup hm, firstOfNames_of_nodup he]

/-- **The models of a text are those of its blocks, the first of each name.** -/
theorem models_parse (source : String) :
    (parse source).models = (firstOfNames (Blocks.extract source).models).map
      (Model.ofBlock (Blocks.extract source).names) := by
  rw [parse, ofBlocks_eq]

/-- **The enums of a text are those of its blocks, the first of each name.** -/
theorem enums_parse (source : String) :
    (parse source).enums = (firstOfNames (Blocks.extract source).enums).map Enum.ofBlock := by
  rw [parse, ofBlocks_eq]

end Document

end Sieve.Schema
