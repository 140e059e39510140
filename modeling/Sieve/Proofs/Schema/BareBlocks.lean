import Sieve.Proofs.Schema.BlockSearch
import Sieve.Proofs.Schema.Placement

/-!
# What a document is made of

A document is made of the blocks of its text, and of a block only the kind, the name and the bare
words count. So two texts whose blocks agree in these have the same document, but for places.

Where a text begins is one thing that does not count: the blocks found in it are the same.

## Main definitions

* `BareBlock`, `Block.bare` — a block without its places, and its body as bare words
* `Blocks.ofList` — blocks apart by kind

## Main results

* `map_bare_blocksFrom` — where a text begins changes nothing but places
* `Document.unplaced_parse_congr` — texts with the same bare blocks have the same document
-/

namespace Sieve.Schema

open Sieve.Text

/-- What counts of a block: its kind, its name, and the bare words of its body. -/
structure BareBlock where
  kind : BlockKind
  name : String
  tokens : List Token

/-- What counts of a block. -/
def Block.bare (b : Block) : BareBlock := ⟨b.kind, b.name, bareTokens b.body.toList⟩

/-! ### Where a text begins -/

theorem Block.map_bare_read? (kind : BlockKind) (pos pos' : Nat) (cs : List Char) :
    (read? kind pos cs).map (fun p => (p.1.bare, p.2)) =
      (read? kind pos' cs).map fun p => (p.1.bare, p.2) := by
  unfold read?
  simp only
  split
  · rfl
  · split
    · rw [Option.map_map, Option.map_map]
      rfl
    · rfl

theorem Block.map_bare_ofWord? (pos pos' : Nat) (c : Char) (cs : List Char) :
    (ofWord? pos c cs).map (fun p => (p.1.bare, p.2)) =
      (ofWord? pos' c cs).map fun p => (p.1.bare, p.2) := by
  rw [ofWord?, ofWord?]
  cases BlockKind.ofKeyword? (String.ofList (c :: cs.takeWhile isIdentRest)) with
  | none => rfl
  | some kind => exact map_bare_read? kind pos pos' _

/-- **Where a text begins changes nothing but places.** -/
theorem map_bare_blocksFrom (m : Mode) (depth : Nat) (afterIdent : Bool) (pos pos' : Nat)
    (cs : List Char) : (blocksFrom m depth afterIdent pos cs).map Block.bare =
      (blocksFrom m depth afterIdent pos' cs).map Block.bare := by
  induction m, depth, afterIdent, pos, cs using blocksFrom_induction generalizing pos' with
  | nil m depth afterIdent pos => rw [blocksFrom, blocksFrom]
  | word m depth afterIdent pos c cs hbegin hword ih =>
    have hword' := Block.map_bare_ofWord? pos pos' c cs
    rw [hword, Option.map_none, eq_comm, Option.map_eq_none_iff] at hword'
    rw [blocksFrom_word hbegin, blocksFrom_word hbegin, hword, hword']
    exact ih _
  | block m depth afterIdent pos c cs b after hbegin hword ih =>
    have hword' := Block.map_bare_ofWord? pos pos' c cs
    rw [hword, Option.map_some, eq_comm] at hword'
    obtain ⟨⟨b', after'⟩, hb', hbare⟩ := Option.map_eq_some_iff.1 hword'
    obtain ⟨hb, rfl⟩ : b'.bare = b.bare ∧ after' = after := by simpa using hbare
    rw [blocksFrom_word hbegin, blocksFrom_word hbegin, hword, hb', blocksBehind, blocksBehind,
      List.map_cons, List.map_cons, hb, ih]
  | char m depth afterIdent pos c cs hbegin ih =>
    rw [blocksFrom_char hbegin, blocksFrom_char hbegin]
    exact ih _

/-! ### Documents -/

/-- The blocks of a list, apart by kind. -/
def Blocks.ofList (bs : List Block) : Blocks :=
  ⟨bs.filter (·.kind == .model), bs.filter (·.kind == .enumeration)⟩

/-- What is read off the blocks of one kind depends on the bare blocks only, if it does for each. -/
theorem map_filter_kind_congr {β : Type} {g : Block → β}
    (hg : ∀ b c : Block, b.bare = c.bare → g b = g c) {bs cs : List Block}
    (h : bs.map Block.bare = cs.map Block.bare) (kind : BlockKind) :
    (bs.filter (·.kind == kind)).map g = (cs.filter (·.kind == kind)).map g := by
  induction bs generalizing cs with
  | nil =>
    obtain rfl : cs = [] := by simpa using h.symm
    rfl
  | cons b bs ih =>
    obtain ⟨c, cs, rfl, hc, hcs⟩ := List.map_eq_cons_iff.1 h.symm
    have hkind : c.kind = b.kind := congrArg BareBlock.kind hc
    rw [List.filter_cons, List.filter_cons, hkind]
    split
    · rw [List.map_cons, List.map_cons, ih hcs.symm, hg c b hc]
    · exact ih hcs.symm

section

variable {b c : Block}

theorem Model.unplaced_ofBlock_congr (h : b.bare = c.bare) (names : Names) :
    (ofBlock names b).unplaced = (ofBlock names c).unplaced := by
  have hname : b.name = c.name := congrArg BareBlock.name h
  have htokens : bareTokens b.body.toList = bareTokens c.body.toList := congrArg BareBlock.tokens h
  rw [unplaced_ofBlock, unplaced_ofBlock, hname, htokens]

theorem Enum.unplaced_ofBlock_congr (h : b.bare = c.bare) :
    (ofBlock b).unplaced = (ofBlock c).unplaced := by
  have hname : b.name = c.name := congrArg BareBlock.name h
  have htokens : bareTokens b.body.toList = bareTokens c.body.toList := congrArg BareBlock.tokens h
  rw [unplaced_ofBlock, unplaced_ofBlock, hname, htokens]

end

namespace Document

theorem unplaced_addModel (d : Document) (m : Model) :
    (d.addModel m).unplaced = d.unplaced.addModel m.unplaced := by
  have hfind : (d.unplaced.model? m.unplaced.name).isSome = (d.model? m.name).isSome := by
    rw [model?, unplaced, List.find?_map, Option.isSome_map]
    rfl
  rw [addModel, addModel, hfind]
  split
  · rfl
  · simp [unplaced]

theorem unplaced_addEnum (d : Document) (e : Enum) :
    (d.addEnum e).unplaced = d.unplaced.addEnum e.unplaced := by
  have hfind : (d.unplaced.enum? e.unplaced.name).isSome = (d.enum? e.name).isSome := by
    rw [enum?, unplaced, List.find?_map, Option.isSome_map]
    rfl
  rw [addEnum, addEnum, hfind]
  split
  · rfl
  · simp [unplaced]

theorem unplaced_foldl_addModel (ms : List Model) (d : Document) :
    (ms.foldl addModel d).unplaced = (ms.map Model.unplaced).foldl addModel d.unplaced := by
  induction ms generalizing d with
  | nil => rfl
  | cons m ms ih => rw [List.foldl_cons, List.map_cons, List.foldl_cons, ih, unplaced_addModel]

theorem unplaced_foldl_addEnum (es : List Enum) (d : Document) :
    (es.foldl addEnum d).unplaced = (es.map Enum.unplaced).foldl addEnum d.unplaced := by
  induction es generalizing d with
  | nil => rfl
  | cons e es ih => rw [List.foldl_cons, List.map_cons, List.foldl_cons, ih, unplaced_addEnum]

/-- The document of some blocks, without places, is made up of what they declare without places. -/
theorem unplaced_ofBlocks (names : Names) (bs : Blocks) :
    (ofBlocks names bs).unplaced =
      (bs.models.map fun b => (Model.ofBlock names b).unplaced).foldl addModel
        ((bs.enums.map fun b => (Enum.ofBlock b).unplaced).foldl addEnum empty) := by
  rw [ofBlocks, unplaced_foldl_addModel, unplaced_foldl_addEnum, List.map_map, List.map_map]
  rfl

end Document

section

variable {bs cs : List Block} (h : bs.map Block.bare = cs.map Block.bare)

include h

theorem Blocks.names_ofList_congr : (ofList bs).names = (ofList cs).names := by
  have hname : ∀ b c : Block, b.bare = c.bare → b.name = c.name :=
    fun b c hbc => congrArg BareBlock.name hbc
  have hmodels : (ofList bs).models.map Block.name = (ofList cs).models.map Block.name :=
    map_filter_kind_congr hname h .model
  have henums : (ofList bs).enums.map Block.name = (ofList cs).enums.map Block.name :=
    map_filter_kind_congr hname h .enumeration
  rw [names, names, hmodels, henums]

theorem Document.unplaced_ofBlocks_congr (names : Names) :
    (ofBlocks names (Blocks.ofList bs)).unplaced =
      (ofBlocks names (Blocks.ofList cs)).unplaced := by
  have hmodels : (Blocks.ofList bs).models.map (fun b => (Model.ofBlock names b).unplaced) =
      (Blocks.ofList cs).models.map fun b => (Model.ofBlock names b).unplaced :=
    map_filter_kind_congr (fun b c hbc => Model.unplaced_ofBlock_congr hbc names) h .model
  have henums : (Blocks.ofList bs).enums.map (fun b => (Enum.ofBlock b).unplaced) =
      (Blocks.ofList cs).enums.map fun b => (Enum.ofBlock b).unplaced :=
    map_filter_kind_congr (fun b c hbc => Enum.unplaced_ofBlock_congr hbc) h .enumeration
  rw [unplaced_ofBlocks, unplaced_ofBlocks, hmodels, henums]

end

/-- **Texts with the same bare blocks have the same document**, but for places. -/
theorem Document.unplaced_parse_congr {s t : String}
    (h : (blocks s).map Block.bare = (blocks t).map Block.bare) :
    (parse s).unplaced = (parse t).unplaced := by
  have hnames : (Blocks.extract s).names = (Blocks.extract t).names := Blocks.names_ofList_congr h
  rw [parse, hnames]
  exact unplaced_ofBlocks_congr h _

end Sieve.Schema
