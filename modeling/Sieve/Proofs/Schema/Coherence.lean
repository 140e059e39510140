import Sieve.Proofs.Schema.Declarations
import Sieve.Proofs.Schema.FirstBlocks

/-!
# Documents and the names of their text

A document is put together from two passes over its text. The first collects the names of all
blocks, those that are left out later as well; the second reads the fields of the blocks that are
kept. The two fit together: what a field's type refers to is told by the names of the first pass
alone, and what the field says of itself, its connection and its attributes, fits that.

## Main definitions

* `Blocks.DeclaresModel`, `Blocks.DeclaresEnum` — the names of all blocks
* `Field.CoherentWith`, `Document.CoherentWith` — a field and a document that fit the blocks

## Main results

* `Kind.resolve_eq_iff` — what a name refers to, by the names of the blocks
* `Field.coherentWith_of_ofWords?` — a field that is read fits the blocks
* `Document.coherentWith_parse` — a document fits the blocks of its text
-/

namespace Sieve.Schema

/-- Some block declares a model of this name. -/
def Blocks.DeclaresModel (bs : Blocks) (name : String) : Prop := ∃ b ∈ bs.models, b.name = name

/-- Some block declares an enum of this name. -/
def Blocks.DeclaresEnum (bs : Blocks) (name : String) : Prop := ∃ b ∈ bs.enums, b.name = name

theorem Blocks.mem_models_names {bs : Blocks} {name : String} :
    name ∈ bs.names.models ↔ bs.DeclaresModel name := List.mem_map

theorem Blocks.mem_enums_names {bs : Blocks} {name : String} :
    name ∈ bs.names.enums ↔ bs.DeclaresEnum name := List.mem_map

/-- What a name refers to is told by the first of three tables that has it: the models, the enums
and the scalar types. -/
theorem Kind.resolve_eq_iff (bs : Blocks) (name : String) :
    (resolve bs.names name = .relation ↔ bs.DeclaresModel name) ∧
    (resolve bs.names name = .enumeration ↔ ¬ bs.DeclaresModel name ∧ bs.DeclaresEnum name) ∧
    (∀ s, resolve bs.names name = .scalar s ↔
      ¬ bs.DeclaresModel name ∧ ¬ bs.DeclaresEnum name ∧ Scalar.ofName? name = some s) ∧
    (resolve bs.names name = .unknown ↔
      ¬ bs.DeclaresModel name ∧ ¬ bs.DeclaresEnum name ∧ Scalar.ofName? name = none) := by
  rw [resolve, ← Blocks.mem_models_names, ← Blocks.mem_enums_names]
  by_cases hmodel : name ∈ bs.names.models
  · simp [hmodel]
  · by_cases henum : name ∈ bs.names.enums
    · simp [hmodel, henum]
    · cases hscalar : Scalar.ofName? name <;> simp [hmodel, henum]

/-! ### Fields -/

/-- What the field says fits the names of the blocks: its kind is that of its type's name, a model
before an enum and an enum before a scalar type. Only a relation that is no list has a connection,
and every attribute begins with a single `@`. -/
structure Field.CoherentWith (bs : Blocks) (f : Field) : Prop where
  relation_iff : f.kind = .relation ↔ bs.DeclaresModel f.type
  enumeration_iff : f.kind = .enumeration ↔ ¬ bs.DeclaresModel f.type ∧ bs.DeclaresEnum f.type
  scalar_iff : ∀ s, f.kind = .scalar s ↔
    ¬ bs.DeclaresModel f.type ∧ ¬ bs.DeclaresEnum f.type ∧ Scalar.ofName? f.type = some s
  unknown_iff : f.kind = .unknown ↔
    ¬ bs.DeclaresModel f.type ∧ ¬ bs.DeclaresEnum f.type ∧ Scalar.ofName? f.type = none
  isRelation_iff : f.isRelation = true ↔ f.kind = .relation
  connection : f.connection?.isSome = true → f.isRelation = true ∧ f.isArray = false
  words : ∀ w ∈ f.words, ∃ rest, w.toList = '@' :: rest ∧ rest.head? ≠ some '@'

/-- A word that is an attribute and no directive has a single `@` in front. -/
theorem Word.exists_eq_cons_of_isAttribute {w : Word} (hattribute : w.isAttribute = true)
    (hdirective : w.isDirective = false) :
    ∃ rest, w.text = '@' :: rest ∧ rest.head? ≠ some '@' := by
  rw [isAttribute, beq_iff_eq] at hattribute
  obtain ⟨rest, htext⟩ := List.head?_eq_some_iff.1 hattribute
  refine ⟨rest, htext, fun hhead => ?_⟩
  obtain ⟨behind, rfl⟩ := List.head?_eq_some_iff.1 hhead
  rw [isDirective, htext] at hdirective
  cases hdirective

namespace Field

theorem isRelation_and_isArray_of_connection? {f : Field} (h : f.connection?.isSome = true) :
    f.isRelation = true ∧ f.isArray = false := by
  rw [connection?] at h
  split at h
  · next hone => simpa using hone
  · cases h

/-- **A field that is read off words without directives fits the blocks** whose names its type is
looked up among. -/
theorem coherentWith_of_ofWords? {bs : Blocks} {bodyStart : Nat} {ws : List Word} {f : Field}
    (h : ofWords? bs.names bodyStart ws = some f) (hws : ∀ w ∈ ws, w.isDirective = false) :
    f.CoherentWith bs := by
  obtain ⟨_, _, _, -, -, hkind, -, -⟩ := exists_words_of_ofWords? h
  obtain ⟨hrelation, henumeration, hscalar, hunknown⟩ := Kind.resolve_eq_iff bs f.type
  rw [← hkind] at hrelation henumeration hscalar hunknown
  refine ⟨hrelation, henumeration, hscalar, hunknown, beq_iff_eq,
    isRelation_and_isArray_of_connection?, ?_⟩
  intro word hword
  obtain ⟨w, hw, hattribute, rfl⟩ := exists_word_of_mem_words h hword
  rw [String.toList_ofList]
  exact Word.exists_eq_cons_of_isAttribute hattribute (hws w hw)

end Field

/-! ### Documents -/

/-- The document says what the blocks declare, of each name what its first block declares. -/
structure Document.CoherentWith (bs : Blocks) (d : Document) : Prop where
  /-- Each model comes once, in the order in which the names come first. -/
  names_models : d.models.map Model.name = (bs.models.map Block.name).eraseDups
  models : ∀ m ∈ d.models, ∃ b, bs.models.find? (fun b => b.name == m.name) = some b ∧
    m = Model.ofBlock bs.names b
  /-- So does each enum. -/
  names_enums : d.enums.map Enum.name = (bs.enums.map Block.name).eraseDups
  enums : ∀ e ∈ d.enums, ∃ b, bs.enums.find? (fun b => b.name == e.name) = some b ∧
    e = Enum.ofBlock b
  fields : ∀ m ∈ d.models, ∀ f ∈ m.fields, f.CoherentWith bs

theorem Model.coherentWith_of_mem_fields {bs : Blocks} {b : Block} {f : Field}
    (h : f ∈ (ofBlock bs.names b).fields) : f.CoherentWith bs := by
  obtain ⟨ws, hd, hf⟩ := exists_words_of_mem_fields h
  have hnone : ∀ w ∈ ([] : List Word), w.isDirective = false := nofun
  exact Field.coherentWith_of_ofWords? hf (isDirective_of_mem_field hnone hd)

/-- **A document fits the blocks of its text.** Its models and enums are those of the first blocks
of their names, in order. What each field's type refers to is told by the names of all blocks, and
the field has a connection only as a relation to one record, and no directive among its
attributes. -/
theorem Document.coherentWith_parse (source : String) :
    (parse source).CoherentWith (Blocks.extract source) where
  names_models := by
    rw [models_parse, List.map_map, ← map_name_firstOfNames]
    rfl
  models := by
    rw [models_parse, List.forall_mem_map]
    exact fun b hb => ⟨b, find?_of_mem_firstOfNames hb, rfl⟩
  names_enums := by
    rw [enums_parse, List.map_map, ← map_name_firstOfNames]
    rfl
  enums := by
    rw [enums_parse, List.forall_mem_map]
    exact fun b hb => ⟨b, find?_of_mem_firstOfNames hb, rfl⟩
  fields := by
    rw [models_parse, List.forall_mem_map]
    exact fun b _ f hf => Model.coherentWith_of_mem_fields hf

end Sieve.Schema
