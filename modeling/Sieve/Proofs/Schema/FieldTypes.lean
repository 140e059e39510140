import Sieve.Proofs.Schema.FirstBlocks

/-!
# Types of fields

The second word of a declaration counts as its type, whatever it is. In a declaration whose type is
missing it is an attribute, or the marks that the type should have had, and the field gets a type
that begins with `@` or is empty. Only a declaration of a single word is dropped.

## Main definitions

* `Word.namesType` — the word is not an attribute, and it is more than marks
* `Declaration.isTyped` — the declaration gives no field, or one with such a word for its type

## Main results

* `exists_marks_splitMarks` — nothing but marks is taken off a type
* `Document.types_parse_iff` — the texts whose fields all have the name of a type
-/

namespace Sieve.Schema

open Sieve.Text

/-! ### Marks -/

/-- The text without `mark` at its end, if it ends with it. -/
def withoutEnd (mark cs : List Char) : List Char := (dropEnd? mark cs).getD cs

theorem type_splitMarks (cs : List Char) :
    (splitMarks cs).type = withoutEnd ['?'] (withoutEnd ['[', ']'] (withoutEnd ['?'] cs)) := by
  simp only [splitMarks, withoutEnd]
  -- each of the three marks is there or not
  cases dropEnd? ['?'] cs <;> dsimp only [Option.getD] <;>
    cases dropEnd? ['[', ']'] _ <;> dsimp only [Option.getD] <;>
      cases dropEnd? ['?'] _ <;> rfl

theorem exists_append_withoutEnd (mark cs : List Char) :
    ∃ marks, cs = withoutEnd mark cs ++ marks ∧ ∀ c ∈ marks, c ∈ mark := by
  rw [withoutEnd, dropEnd?]
  split
  · next hsuffix =>
    obtain ⟨front, rfl⟩ := List.isSuffixOf_iff_suffix.1 hsuffix
    exact ⟨mark, by simp, fun _ => id⟩
  · exact ⟨[], (List.append_nil cs).symm, nofun⟩

/-- **Nothing but marks is taken off a type.** -/
theorem exists_marks_splitMarks (cs : List Char) :
    ∃ marks, cs = (splitMarks cs).type ++ marks ∧ ∀ c ∈ marks, c ∈ ['?', '[', ']'] := by
  obtain ⟨outer, houter, ho⟩ := exists_append_withoutEnd ['?'] cs
  obtain ⟨array, harray, ha⟩ := exists_append_withoutEnd ['[', ']'] (withoutEnd ['?'] cs)
  obtain ⟨inner, hinner, hi⟩ :=
    exists_append_withoutEnd ['?'] (withoutEnd ['[', ']'] (withoutEnd ['?'] cs))
  refine ⟨inner ++ (array ++ outer), ?_, ?_⟩
  · rw [type_splitMarks, ← List.append_assoc, ← hinner, ← List.append_assoc, ← harray, ← houter]
  · have hquestion : ['?'] ⊆ ['?', '[', ']'] := by decide
    have hbrackets : ['[', ']'] ⊆ ['?', '[', ']'] := by decide
    intro c hc
    rcases List.mem_append.1 hc with hc | hc
    · exact hquestion (hi c hc)
    · rcases List.mem_append.1 hc with hc | hc
      · exact hbrackets (ha c hc)
      · exact hquestion (ho c hc)

/-- A type begins with `@` if the word did, since no mark is one. -/
theorem head?_type_splitMarks (cs : List Char) :
    (splitMarks cs).type.head? = some '@' ↔ cs.head? = some '@' := by
  obtain ⟨marks, hcs, hmarks⟩ := exists_marks_splitMarks cs
  have hhead : cs.head? = ((splitMarks cs).type ++ marks).head? := congrArg List.head? hcs
  cases htype : (splitMarks cs).type with
  | nil =>
    have hat : marks.head? ≠ some '@' := fun h =>
      absurd (hmarks '@' (List.mem_of_mem_head? h)) (by decide)
    rw [hhead, htype]
    simpa using hat
  | cons c type => rw [hhead, htype, List.cons_append, List.head?_cons, List.head?_cons]

/-! ### Words -/

/-- The word is not an attribute, and it is more than marks. -/
def Word.namesType (w : Word) : Bool := !w.isAttribute && w.marks?.isNone

/-- **A word that names a type is what gives a type with a name.** -/
theorem Word.namesType_iff (w : Word) : w.namesType = true ↔
    (splitMarks w.text).type ≠ [] ∧ (splitMarks w.text).type.head? ≠ some '@' := by
  have hattribute : w.isAttribute = false ↔ (splitMarks w.text).type.head? ≠ some '@' := by
    rw [ne_eq, head?_type_splitMarks, isAttribute, beq_eq_false_iff_ne]
  rw [← hattribute, namesType, marks?]
  cases w.isAttribute <;> simp

/-! ### Declarations -/

/-- The declaration gives no field, or one with the name of a type. -/
def Declaration.isTyped : Declaration → Bool
  | .field (name :: type :: _) => !name.startsIdent || type.namesType
  | _ => true

theorem Declaration.isTyped_iff (names : Names) (bodyStart : Nat) (d : Declaration) :
    d.isTyped = true ↔ ∀ f, Model.fieldOf? names bodyStart d = some f →
      f.type ≠ "" ∧ f.type.toList.head? ≠ some '@' := by
  cases d with
  | directive w => simp [isTyped, Model.fieldOf?]
  | field words =>
    rw [Model.fieldOf?, Field.ofWords?.eq_def]
    match words with
    | [] => simp [isTyped]
    | [_] => simp [isTyped]
    | name :: type :: rest =>
      have htype := type.namesType_iff
      cases hname : name.startsIdent with
      | false => simp [isTyped, hname]
      | true => simp [isTyped, hname, htype]

/-! ### Models -/

theorem Model.types_ofBlock_iff (names : Names) (b : Block) :
    (∀ f ∈ (ofBlock names b).fields, f.type ≠ "" ∧ f.type.toList.head? ≠ some '@') ↔
      ∀ d ∈ declarations b.body, d.isTyped = true := by
  constructor
  · intro h d hd
    rw [d.isTyped_iff names b.bodyStart]
    exact fun f hf => h f (List.mem_filterMap.2 ⟨d, hd, hf⟩)
  · intro h f hf
    obtain ⟨d, hd, hf⟩ := List.mem_filterMap.1 hf
    exact (d.isTyped_iff names b.bodyStart).1 (h d hd) f hf

namespace Document

/-- **All fields of a text have the name of a type exactly if no declaration of its models lacks
one.** -/
theorem types_parse_iff (source : String) :
    (∀ m ∈ (parse source).models, ∀ f ∈ m.fields,
      f.type ≠ "" ∧ f.type.toList.head? ≠ some '@') ↔
    ∀ b ∈ firstOfNames (Blocks.extract source).models, ∀ d ∈ declarations b.body,
      d.isTyped = true := by
  rw [models_parse, List.forall_mem_map]
  exact forall₂_congr fun b _ => Model.types_ofBlock_iff _ b

/-- An attribute and a bare mark as types of fields; the declaration of a name alone is dropped. -/
theorem types_of_incomplete_fields :
    (parse "model A \x7b\n id @id\n tag ?\n lonely\n b Int\n\x7d").models.map
      (fun m => m.fields.map fun f => (f.name, f.type)) =
        [[("id", "@id"), ("tag", ""), ("b", "Int")]] := by
  decide +kernel

end Document

end Sieve.Schema
