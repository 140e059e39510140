import Sieve.Proofs.Schema.BareBlocks
import Sieve.Proofs.Schema.RoundTrip

/-!
# Blocks in another order

A schema may be put together from texts that hold one block each. The body of a block may be
anything, also what no declaration can be read from. The blocks of the joined texts are the blocks
of each, because a block is found whatever stands behind it.

What a block declares depends on the other blocks through their names only, and of these only which
there are counts. So blocks in another order declare the same, in that order.

## Main definitions

* `Blocks.ofTexts`, `Document.ofTexts` — the blocks of texts, each taken by itself, and what they
  declare
* `SingleBlocks` — texts of one block each, without repeated names

## Main results

* `map_unplaced_blocks_intercalate` — the blocks of joined texts are the blocks of each
* `Kind.resolve_congr` — what a type refers to depends on which names there are
* `unplaced_parse_intercalate_of_perm` — the order of blocks does not matter
-/

namespace Sieve.Schema

open Sieve.Text

/-! ### Joined texts -/

/-- The blocks of texts, each taken by itself. -/
def Blocks.ofTexts (texts : List String) : Blocks :=
  ⟨(texts.flatMap blocks).filter (·.kind == .model),
    (texts.flatMap blocks).filter (·.kind == .enumeration)⟩

/-- What the blocks of texts declare, each taken by itself, with types looked up among `names`. -/
def Document.ofTexts (names : Names) (texts : List String) : Document :=
  ⟨(Blocks.ofTexts texts).models.map (Model.ofBlock names),
    (Blocks.ofTexts texts).enums.map Enum.ofBlock⟩

/-- Each text is one block as a whole, and no two models and no two enums share a name. -/
structure SingleBlocks (texts : List String) : Prop where
  each : ∀ text ∈ texts, ∃ b, blocks text = [b] ∧ b.span = ⟨0, byteLength text.toList⟩
  models : ((Blocks.ofTexts texts).models.map Block.name).Nodup
  enums : ((Blocks.ofTexts texts).enums.map Block.name).Nodup

/-- **The blocks of joined texts** are the blocks of each, but for their places. -/
theorem map_unplaced_blocks_intercalate {texts : List String}
    (h : ∀ text ∈ texts, ∃ b, blocks text = [b] ∧ b.span = ⟨0, byteLength text.toList⟩) :
    (blocks ("\n".intercalate texts)).map Block.unplaced =
      (texts.flatMap blocks).map Block.unplaced := by
  have hwritten : ∀ text ∈ texts, ∃ t : BlockText,
      text.toList = t.text ∧ (blocks text).map Block.unplaced = [(t.blockAt 0).unplaced] := by
    intro text htext
    obtain ⟨b, hb, hspan⟩ := h text htext
    obtain ⟨t, ht, rfl⟩ := exists_blockText_of_blocks hb hspan
    exact ⟨t, ht, by rw [hb, List.map_singleton]⟩
  rw [blocks, String.toList_intercalate, List.map_flatMap]
  exact map_unplaced_blocksFrom_intercalate hwritten 0

/-- **Joined texts declare what each of them declares**, in the order of the texts. -/
theorem unplaced_parse_intercalate {texts : List String} (h : SingleBlocks texts) :
    (Document.parse ("\n".intercalate texts)).unplaced =
      (Document.ofTexts (Blocks.ofTexts texts).names texts).unplaced := by
  have hblocks : (blocks ("\n".intercalate texts)).map Block.bare =
      (texts.flatMap blocks).map Block.bare := by
    have hunplaced := congrArg (List.map Block.bare) (map_unplaced_blocks_intercalate h.each)
    rw [List.map_map, List.map_map] at hunplaced
    exact hunplaced
  have hnames : (Blocks.extract ("\n".intercalate texts)).names = (Blocks.ofTexts texts).names :=
    Blocks.names_ofList_congr hblocks
  have hdocument : (Document.ofBlocks (Blocks.ofTexts texts).names
      (Blocks.extract ("\n".intercalate texts))).unplaced =
      (Document.ofBlocks (Blocks.ofTexts texts).names (Blocks.ofTexts texts)).unplaced :=
    Document.unplaced_ofBlocks_congr hblocks _
  rw [Document.parse, hnames, hdocument, Document.ofBlocks_of_nodup h.models h.enums]
  rfl

/-! ### Names -/

section

variable {names names' : Names}

/-- What a type refers to depends on which names there are, not on their order. -/
theorem Kind.resolve_congr (hmodels : ∀ name, name ∈ names.models ↔ name ∈ names'.models)
    (henums : ∀ name, name ∈ names.enums ↔ name ∈ names'.enums) :
    resolve names = resolve names' := by
  funext type
  rw [resolve, resolve]
  simp only [hmodels, henums]

theorem Field.ofWords?_congr (h : Kind.resolve names = Kind.resolve names') :
    ofWords? names = ofWords? names' := by
  funext bodyStart ws
  unfold ofWords?
  rw [h]

theorem Model.ofBlock_congr (h : Kind.resolve names = Kind.resolve names') :
    ofBlock names = ofBlock names' := by
  have hfield : fieldOf? names = fieldOf? names' := by
    funext bodyStart d
    cases d with
    | field ws => rw [fieldOf?, fieldOf?, Field.ofWords?_congr h]
    | directive w => rfl
  funext b
  rw [ofBlock, ofBlock, hfield]

end

/-! ### Texts in another order -/

variable {texts texts' : List String}

theorem perm_filter_blocks (h : texts.Perm texts') (kind : BlockKind) :
    ((texts.flatMap blocks).filter (·.kind == kind)).Perm
      ((texts'.flatMap blocks).filter (·.kind == kind)) :=
  (h.flatMap_right _).filter _

theorem SingleBlocks.perm (h : SingleBlocks texts) (hperm : texts.Perm texts') :
    SingleBlocks texts' where
  each text ht := h.each text (hperm.mem_iff.2 ht)
  models := ((perm_filter_blocks hperm .model).map _).nodup_iff.1 h.models
  enums := ((perm_filter_blocks hperm .enumeration).map _).nodup_iff.1 h.enums

/-- **The order of blocks does not matter.** Joined in either order, texts of one block each declare
what each text declares by itself, with types looked up among the names of all, in the order of the
texts; so both documents have the same models and enums. -/
theorem unplaced_parse_intercalate_of_perm (h : SingleBlocks texts) (hperm : texts.Perm texts') :
    (Document.parse ("\n".intercalate texts)).unplaced =
        (Document.ofTexts (Blocks.ofTexts texts).names texts).unplaced ∧
      (Document.parse ("\n".intercalate texts')).unplaced =
        (Document.ofTexts (Blocks.ofTexts texts).names texts').unplaced ∧
      (Document.parse ("\n".intercalate texts)).unplaced.models.Perm
        (Document.parse ("\n".intercalate texts')).unplaced.models ∧
      (Document.parse ("\n".intercalate texts)).unplaced.enums.Perm
        (Document.parse ("\n".intercalate texts')).unplaced.enums := by
  have hmodels := perm_filter_blocks hperm .model
  have henums := perm_filter_blocks hperm .enumeration
  have hresolve : Kind.resolve (Blocks.ofTexts texts').names =
      Kind.resolve (Blocks.ofTexts texts).names :=
    Kind.resolve_congr (fun _ => (hmodels.map _).symm.mem_iff) fun _ => (henums.map _).symm.mem_iff
  have hparse := unplaced_parse_intercalate h
  have hparse' : (Document.parse ("\n".intercalate texts')).unplaced =
      (Document.ofTexts (Blocks.ofTexts texts).names texts').unplaced := by
    rw [unplaced_parse_intercalate (h.perm hperm), Document.ofTexts, Document.ofTexts,
      Model.ofBlock_congr hresolve]
  refine ⟨hparse, hparse', ?_, ?_⟩
  · rw [hparse, hparse']
    exact (hmodels.map _).map _
  · rw [hparse, hparse']
    exact (henums.map _).map _

/-- A model with a word that declares nothing and a brace in a comment. Its fields refer to an enum
and to a model. -/
def postText : String := "model Post \x7b status Status ? // \x7d\n author User\n ???\x7d"

/-- A model with a brace in a string literal. -/
def userText : String := "model User\t\x7bname String @default(\"\x7d\")\x7d"

/-- An enum. -/
def statusText : String := "enum  Status\x7bDRAFT\x7d"

theorem unplaced_parse_forwardReferences :
    (Document.parse ("\n".intercalate [postText, userText, statusText])).unplaced.models.Perm
      (Document.parse ("\n".intercalate [statusText, userText, postText])).unplaced.models := by
  have hpost : blocks postText = [⟨.model, "Post", postText,
      " status Status ? // \x7d\n author User\n ???", ⟨0, 52⟩, 12⟩] := by
    decide +kernel
  have huser : blocks userText = [⟨.model, "User", userText,
      "name String @default(\"\x7d\")", ⟨0, 38⟩, 12⟩] := by
    decide +kernel
  have hstatus : blocks statusText = [⟨.enumeration, "Status", statusText, "DRAFT",
      ⟨0, 19⟩, 13⟩] := by
    decide +kernel
  have hsingle : SingleBlocks [postText, userText, statusText] := by
    refine ⟨?_, ?_, ?_⟩
    · refine List.forall_mem_cons.2 ⟨⟨_, hpost, by decide⟩, List.forall_mem_cons.2
        ⟨⟨_, huser, by decide⟩, List.forall_mem_singleton.2 ⟨_, hstatus, by decide⟩⟩⟩
    · simp [Blocks.ofTexts, hpost, huser, hstatus]
    · simp [Blocks.ofTexts, hpost, huser, hstatus]
  exact (unplaced_parse_intercalate_of_perm hsingle (List.reverse_perm _).symm).2.2.1

end Sieve.Schema
