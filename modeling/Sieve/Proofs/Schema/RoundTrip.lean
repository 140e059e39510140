import Mathlib
import Sieve.Proofs.Schema.BlockText
import Sieve.Proofs.Schema.FirstBlocks
import Sieve.Proofs.Schema.Rendering

/-!
# Rendered schemas read back

Reading the text of a rendered document gives the document again, but for places, and with the types
of its fields looked up. Fields may share a line, and attributes may hold anything that the
attribute grammar allows, such as braces and slashes in string literals.

## Main definitions

* `Item`, `Item.text`, `schemaText` — a model or an enum, its block, and the text of a whole schema
* `Spellable` — the items can be read back

## Main results

* `map_unplaced_blocksFrom` — the blocks of a rendered schema are its items
* `Model.unplaced_ofBlock_block`, `Enum.unplaced_ofBlock_block` — reading one item back
* `unplaced_parse_schemaText` — reading a rendered schema back
-/

namespace Sieve.Schema

open Sieve.Text

/-- How the body of a model is laid out. -/
structure Layout where
  /-- The gap in front of a part is a line break. -/
  breaks : Nat → Bool
  /-- How many fields stand before the directive. -/
  before : Nat

/-- The parts of a model's body, the directive after the first `before` fields. -/
def Model.parts (m : Model) (before : Nat) : List Part :=
  (m.fields.take before).map .field ++
    ((m.mapName.map Part.directive).toList ++ (m.fields.drop before).map .field)

/-- A model or an enum of a schema. -/
inductive Item where
  | model (m : Model) (layout : Layout)
  | enumeration (e : Enum)

namespace Item

/-- The kind of block that the item is written as. -/
def kind : Item → BlockKind
  | model _ _ => .model
  | enumeration _ => .enumeration

/-- The name of the item. -/
def name : Item → String
  | model m _ => m.name
  | enumeration e => e.name

/-- The text between the braces of the item's block. -/
def body : Item → List Char
  | model m layout => bodyOf layout.breaks ((m.parts layout.before).map Part.text)
  | enumeration e => bodyOf (fun _ => false) (e.values.map String.toList)

/-- The block of the item as text. -/
def text (i : Item) : List Char :=
  i.kind.keyword.toList ++ ' ' :: (i.name.toList ++ ' ' :: '\x7b' :: (i.body ++ ['\x7d']))

/-- The model that the item is. -/
def model? : Item → Option Model
  | model m _ => some m
  | enumeration _ => none

/-- The enum that the item is. -/
def enum? : Item → Option Enum
  | model _ _ => none
  | enumeration e => some e

/-- The block of the item, without its place. -/
def block (i : Item) : Block := ⟨i.kind, i.name, "", String.ofList i.body, .zero, 0⟩

/-- The item can be read back: its names are identifiers, and so are the values of an enum. -/
def Spellable : Item → Prop
  | model m _ => isIdent m.name.toList = true ∧ ∀ f ∈ m.fields, f.Spellable
  | enumeration e => isIdent e.name.toList = true ∧ ∀ v ∈ e.values, isIdent v.toList = true

end Item

/-- The text of a schema: its blocks, joined by line breaks. -/
def schemaText (items : List Item) : List Char := ['\n'].intercalate (items.map Item.text)

/-- The document that the items make up. -/
def documentOf (items : List Item) : Document :=
  ⟨items.filterMap Item.model?, items.filterMap Item.enum?⟩

/-- The names of the models and the enums of a document. -/
def Document.names (d : Document) : Names := ⟨d.models.map Model.name, d.enums.map Enum.name⟩

/-- The model with the types of its fields looked up. -/
def Model.resolved (names : Names) (m : Model) : Model :=
  { m with fields := m.fields.map (Field.resolved names) }

/-- The document with the types of its fields looked up among its own names. -/
def Document.resolved (d : Document) : Document :=
  { d with models := d.models.map (Model.resolved d.names) }

/-- The block without its place and its text as a whole. -/
def Block.unplaced (b : Block) : Block := { b with text := "", span := .zero, bodyStart := 0 }

/-! ### Blocks -/

theorem Model.spellable_of_mem_parts {m : Model} (h : ∀ f ∈ m.fields, f.Spellable) (before : Nat) :
    ∀ p ∈ m.parts before, p.Spellable := by
  intro p hp
  rcases List.mem_append.1 hp with hp | hp
  · obtain ⟨f, hf, rfl⟩ := List.mem_map.1 hp
    exact h f (List.mem_of_mem_take hf)
  · rcases List.mem_append.1 hp with hp | hp
    · obtain ⟨name, -, rfl⟩ := Option.map_eq_some_iff.1 (Option.mem_toList.1 hp)
      trivial
    · obtain ⟨f, hf, rfl⟩ := List.mem_map.1 hp
      exact h f (List.mem_of_mem_drop hf)

namespace Item

theorem Spellable.name {i : Item} (h : i.Spellable) : isIdent i.name.toList = true := by
  cases i with
  | model m layout => exact h.1
  | enumeration e => exact h.1

/-- The body of an item ends where its brace closes it. -/
theorem Spellable.bodySpan? {i : Item} (h : i.Spellable) (cs : List Char) :
    bodySpan? .code 0 (i.body ++ '\x7d' :: cs) = some (i.body, cs) := by
  cases i with
  | model m layout =>
    have hparts := Model.spellable_of_mem_parts h.2 layout.before
    have htexts : (m.parts layout.before).map Part.text =
        ((m.parts layout.before).map Part.words).map spaced := by
      rw [List.map_map]
      exact List.map_congr_left fun p _ => p.text_eq_spaced
    rw [body, htexts]
    refine bodySpan?_bodyOf (List.forall_mem_map.2 fun p hp => ?_) layout.breaks cs
    exact (hparts p hp).isWhole
  | enumeration e =>
    have htexts : e.values.map String.toList =
        (e.values.map fun v => [v.toList]).map spaced := by
      rw [List.map_map]
      exact List.map_congr_left fun v _ => by simp [spaced]
    rw [body, htexts]
    refine bodySpan?_bodyOf (List.forall_mem_map.2 fun v hv => ?_) _ cs
    exact List.forall_mem_singleton.2 (isWhole_of_isIdent (h.2 v hv))

end Item

/-- The block of an item as it is written. -/
def Item.Spellable.blockText {i : Item} (h : i.Spellable) : BlockText where
  kind := i.kind
  gap := [' ']
  name := i.name.toList
  inner := [' ']
  body := i.body
  gap_ne_nil := List.cons_ne_nil _ _
  isAsciiSpace_gap := List.forall_mem_singleton.2 rfl
  isIdent_name := h.name
  isAsciiSpace_inner := List.forall_mem_singleton.2 rfl
  closes := h.bodySpan?

theorem Item.Spellable.text_blockText {i : Item} (h : i.Spellable) : h.blockText.text = i.text := by
  simp [blockText, BlockText.text, BlockText.head, Item.text]

theorem Item.Spellable.unplaced_blockAt {i : Item} (h : i.Spellable) (pos : Nat) :
    (h.blockText.blockAt pos).unplaced = i.block := by
  simp [blockText, BlockText.blockAt, Block.unplaced, Item.block]

/-- **Blocks with line breaks in between** are found one after the other. -/
theorem map_unplaced_blocksFrom_intercalate {α : Type} {text : α → List Char}
    {read : α → List Block} {xs : List α}
    (h : ∀ x ∈ xs, ∃ t : BlockText, text x = t.text ∧ read x = [(t.blockAt 0).unplaced])
    (pos : Nat) : (blocksFrom .code 0 false pos (['\n'].intercalate (xs.map text))).map
      Block.unplaced = xs.flatMap read := by
  induction xs generalizing pos with
  | nil =>
    rw [List.map_nil, List.intercalate_nil, blocksFrom]
    rfl
  | cons x xs ih =>
    obtain ⟨⟨t, htext, hread⟩, hxs⟩ := List.forall_mem_cons.1 h
    have hplace : (t.blockAt pos).unplaced = (t.blockAt 0).unplaced := rfl
    rw [List.map_cons, List.flatMap_cons, htext, hread, List.singleton_append]
    cases xs with
    | nil =>
      rw [List.map_nil, List.intercalate_singleton, ← List.append_nil t.text,
        t.blocksFrom_text_append, blocksFrom, List.map_singleton, hplace]
      rfl
    | cons y ys =>
      have hrest := ih hxs (pos + byteLength t.text + 1)
      rw [List.map_cons] at hrest ⊢
      rw [List.intercalate_cons_cons, List.append_assoc, List.singleton_append,
        t.blocksFrom_text_append, blocksFrom_newline, List.map_cons, hrest, hplace]

/-- **The blocks of a rendered schema are its items.** -/
theorem map_unplaced_blocksFrom {items : List Item} (h : ∀ i ∈ items, i.Spellable) (pos : Nat) :
    (blocksFrom .code 0 false pos (schemaText items)).map Block.unplaced =
      items.map Item.block := by
  have hwritten : ∀ i ∈ items, ∃ t : BlockText,
      i.text = t.text ∧ [i.block] = [(t.blockAt 0).unplaced] := by
    intro i hi
    exact ⟨(h i hi).blockText, (h i hi).text_blockText.symm,
      congrArg List.singleton ((h i hi).unplaced_blockAt 0).symm⟩
  rw [schemaText, map_unplaced_blocksFrom_intercalate hwritten, List.map_eq_flatMap]

/-! ### Models and enums -/

/-- The field that a part is. -/
def Part.field? : Part → Option Field
  | field f => some f
  | directive _ => none

theorem Part.Spellable.fieldOf?_declaration {p : Part} (h : p.Spellable) (names : Names) :
    (Model.fieldOf? names 0 p.declaration).map Field.unplaced =
      p.field?.map fun f => (f.resolved names).unplaced := by
  cases p with
  | field f => exact Field.ofWords?_spelling h names
  | directive name => rfl

theorem filterMap_field?_parts (m : Model) (before : Nat) :
    (m.parts before).filterMap Part.field? = m.fields := by
  have hall : ∀ fs : List Field, (fs.map Part.field).filterMap Part.field? = fs := fun fs => by
    rw [List.filterMap_map]
    exact List.filterMap_some
  have hdirective : (m.mapName.map Part.directive).toList.filterMap Part.field? = [] := by
    cases m.mapName <;> rfl
  rw [Model.parts, List.filterMap_append, List.filterMap_append, hall, hall, hdirective,
    List.nil_append, List.take_append_drop]

theorem findSome?_mapNameOf?_parts (m : Model) (before : Nat) :
    ((m.parts before).map Part.declaration).findSome? Model.mapNameOf? = m.mapName := by
  have hall : ∀ fs : List Field,
      ((fs.map Part.field).map Part.declaration).findSome? Model.mapNameOf? = none := fun fs => by
    induction fs with
    | nil => rfl
    | cons f fs ih => exact ih
  rw [Model.parts, List.map_append, List.map_append, List.findSome?_append, List.findSome?_append,
    hall, hall, Option.none_or, Option.or_none]
  cases m.mapName with
  | none => rfl
  | some name =>
    rw [Option.map_some, Option.toList_some, List.map_singleton, Part.declaration,
      List.findSome?_singleton, mapNameOf?_directive]

/-- **Reading a model back.** -/
theorem Model.unplaced_ofBlock_block {m : Model} {layout : Layout} {names : Names} {b : Block}
    (h : (Item.model m layout).Spellable) (hb : b.unplaced = (Item.model m layout).block) :
    (ofBlock names b).unplaced = (m.resolved names).unplaced := by
  have hname : b.name = m.name := congrArg Block.name hb
  have hbody : b.body.toList = bodyOf layout.breaks ((m.parts layout.before).map Part.text) := by
    have heq : b.body = String.ofList (Item.model m layout).body := congrArg Block.body hb
    rw [heq, String.toList_ofList]
    rfl
  have hparts := spellable_of_mem_parts h.2 layout.before
  have hgroup : group [] (bareTokens (bodyOf layout.breaks
      ((m.parts layout.before).map Part.text))) = (m.parts layout.before).map Part.declaration :=
    group_bodyOf hparts layout.breaks (Or.inl rfl)
  have hfields : (((m.parts layout.before).map Part.declaration).filterMap
      (fieldOf? names 0)).map Field.unplaced =
      m.fields.map fun f => (f.resolved names).unplaced := by
    rw [List.filterMap_map, List.map_filterMap]
    have hcongr : (m.parts layout.before).filterMap
        (fun p => (fieldOf? names 0 p.declaration).map Field.unplaced) =
        (m.parts layout.before).filterMap
          fun p => p.field?.map fun f => (f.resolved names).unplaced :=
      List.filterMap_congr fun p hp => (hparts p hp).fieldOf?_declaration names
    rw [← filterMap_field?_parts m layout.before, List.map_filterMap]
    exact hcongr
  rw [unplaced_ofBlock, hbody, hgroup, hname, hfields, findSome?_mapNameOf?_parts, unplaced,
    resolved, List.map_map]
  rfl

theorem bodyOf_false (ws : List (List Char)) :
    bodyOf (fun _ => false) ws = ws.flatMap (' ' :: ·) ++ [' '] := by
  induction ws with
  | nil => rfl
  | cons w ws ih =>
    rw [bodyOf, ih]
    simp [gap]

theorem valueOf?_bareWord {w : String} (h : isIdent w.toList = true) :
    Enum.valueOf? (.word (bareWord w.toList)) = some w := by
  obtain ⟨c, rest, hw, hc, -⟩ := exists_head_of_isIdent h
  have hattr : (bareWord w.toList).isAttribute = false := by
    have hat : c ≠ '@' := ne_of_isIdentStart hc (by decide)
    simp [Word.isAttribute, bareWord, hw, hat]
  have htrim : w.toList.reverse.dropWhile (fun c => c == ',' || c == ';') = w.toList.reverse := by
    cases hrev : w.toList.reverse with
    | nil => rfl
    | cons d ds =>
      have hd : isIdentRest d = true :=
        isIdentRest_of_isIdent h d (by rw [← List.mem_reverse, hrev]; exact List.mem_cons_self)
      have hcomma : d ≠ ',' := ne_of_isIdentRest hd (by decide)
      have hsemicolon : d ≠ ';' := ne_of_isIdentRest hd (by decide)
      rw [List.dropWhile_cons_of_neg (by simp [hcomma, hsemicolon])]
  have hstart : w.toList.head?.any isIdentStart = true := by
    rw [hw]
    exact hc
  rw [Enum.valueOf?, hattr]
  simp only [bareWord, htrim, List.reverse_reverse, hstart, String.ofList_toList]
  rfl

/-- **Reading an enum back.** -/
theorem Enum.unplaced_ofBlock_block {e : Enum} {b : Block} (h : (Item.enumeration e).Spellable)
    (hb : b.unplaced = (Item.enumeration e).block) : (ofBlock b).unplaced = e.unplaced := by
  have hname : b.name = e.name := congrArg Block.name hb
  have hbody : b.body.toList = (e.values.map String.toList).flatMap (' ' :: ·) ++ [' '] := by
    have heq : b.body = String.ofList (Item.enumeration e).body := congrArg Block.body hb
    rw [heq, String.toList_ofList, ← bodyOf_false]
    rfl
  have hwhole : ∀ w ∈ e.values.map String.toList, IsWhole w :=
    List.forall_mem_map.2 fun v hv => isWhole_of_isIdent (h.2 v hv)
  have hvalues : (e.values.map fun v => Token.word (bareWord v.toList)).filterMap valueOf? =
      e.values := by
    rw [List.filterMap_map]
    have hcongr : e.values.filterMap (fun v => valueOf? (.word (bareWord v.toList))) =
        e.values.filterMap some :=
      List.filterMap_congr fun v hv => valueOf?_bareWord (h.2 v hv)
    rw [List.filterMap_some] at hcongr
    exact hcongr
  rw [unplaced_ofBlock, hbody, bareTokens_flatMap hwhole (by decide), bareTokens_space,
    bareTokens_nil, List.append_nil, List.map_map, hname]
  exact congrArg (fun values => (⟨e.name, values, .zero⟩ : Enum)) hvalues

/-! ### Documents -/

section

variable {β : Type} {bs : List Block} {items : List Item}

/-- What is read off the blocks of models is read off the models, if it is so for each. -/
theorem map_filter_models (h : bs.map Block.unplaced = items.map Item.block) {g : Block → β}
    {read : Model → β} (hread : ∀ m layout b, Item.model m layout ∈ items →
      b.unplaced = (Item.model m layout).block → g b = read m) :
    (bs.filter (·.kind == .model)).map g = (items.filterMap Item.model?).map read := by
  induction items generalizing bs with
  | nil =>
    obtain rfl : bs = [] := by simpa using h
    rfl
  | cons i items ih =>
    obtain ⟨b, bs, rfl, hb, hbs⟩ := List.map_eq_cons_iff.1 h
    have hrest := ih hbs fun m layout b hm => hread m layout b (List.mem_cons_of_mem _ hm)
    have hkind : b.kind = i.kind := congrArg Block.kind hb
    rw [List.filter_cons, hkind]
    cases i with
    | model m layout =>
      have hfirst : g b = read m := hread m layout b List.mem_cons_self hb
      show g b :: _ = read m :: _
      rw [hfirst, hrest]
    | enumeration e => exact hrest

/-- So it is for enums. -/
theorem map_filter_enums (h : bs.map Block.unplaced = items.map Item.block) {g : Block → β}
    {read : Enum → β} (hread : ∀ e b, Item.enumeration e ∈ items →
      b.unplaced = (Item.enumeration e).block → g b = read e) :
    (bs.filter (·.kind == .enumeration)).map g = (items.filterMap Item.enum?).map read := by
  induction items generalizing bs with
  | nil =>
    obtain rfl : bs = [] := by simpa using h
    rfl
  | cons i items ih =>
    obtain ⟨b, bs, rfl, hb, hbs⟩ := List.map_eq_cons_iff.1 h
    have hrest := ih hbs fun e b he => hread e b (List.mem_cons_of_mem _ he)
    have hkind : b.kind = i.kind := congrArg Block.kind hb
    rw [List.filter_cons, hkind]
    cases i with
    | model m layout => exact hrest
    | enumeration e =>
      have hfirst : g b = read e := hread e b List.mem_cons_self hb
      show g b :: _ = read e :: _
      rw [hfirst, hrest]

end

/-- A document that can be written out and read back: each of its items can, and no two models and
no two enums share a name. -/
structure Spellable (items : List Item) : Prop where
  each : ∀ i ∈ items, i.Spellable
  models : ((documentOf items).models.map Model.name).Nodup
  enums : ((documentOf items).enums.map Enum.name).Nodup

/-- **Reading a rendered schema back** gives the document, but for places, with the types of its
fields looked up among its own names. -/
theorem unplaced_parse_schemaText {items : List Item} (h : Spellable items) :
    (Document.parse (String.ofList (schemaText items))).unplaced =
      (documentOf items).resolved.unplaced := by
  have hblocks : (blocks (String.ofList (schemaText items))).map Block.unplaced =
      items.map Item.block := by
    rw [blocks, String.toList_ofList]
    exact map_unplaced_blocksFrom h.each 0
  have hmodelNames : (Blocks.extract (String.ofList (schemaText items))).models.map Block.name =
      (documentOf items).models.map Model.name :=
    map_filter_models hblocks fun m layout b _ hb => congrArg Block.name hb
  have henumNames : (Blocks.extract (String.ofList (schemaText items))).enums.map Block.name =
      (documentOf items).enums.map Enum.name :=
    map_filter_enums hblocks fun e b _ hb => congrArg Block.name hb
  have hnames : (Blocks.extract (String.ofList (schemaText items))).names =
      (documentOf items).names := by
    rw [Blocks.names, hmodelNames, henumNames]
    rfl
  have hmodels : (Blocks.extract (String.ofList (schemaText items))).models.map
      (fun b => (Model.ofBlock (documentOf items).names b).unplaced) =
      (documentOf items).models.map fun m => (m.resolved (documentOf items).names).unplaced :=
    map_filter_models hblocks fun m layout b hm hb =>
      Model.unplaced_ofBlock_block (h.each _ hm) hb
  have henums : (Blocks.extract (String.ofList (schemaText items))).enums.map
      (fun b => (Enum.ofBlock b).unplaced) = (documentOf items).enums.map Enum.unplaced :=
    map_filter_enums hblocks fun e b he hb => Enum.unplaced_ofBlock_block (h.each _ he) hb
  rw [Document.parse, hnames, Document.ofBlocks_of_nodup (hmodelNames ▸ h.models)
    (henumNames ▸ h.enums), Document.unplaced, List.map_map, List.map_map, Document.resolved,
    Document.unplaced, List.map_map]
  exact congrArg₂ Document.mk hmodels henums

/-- An enum, and a model with a field of that enum. A brace, two slashes and a question mark stand
in a string literal, and quotes in the name in the database. -/
def roleItems : List Item :=
  [.enumeration ⟨"Role", ["USER", "ADMIN"], .zero⟩,
    .model ⟨"Account",
      [⟨"id", "Int", .unknown, false, false, ["@id"], .zero⟩,
        ⟨"roles", "Role", .unknown, true, true, ["@default([USER], note: \"\x7b // ?\")"], .zero⟩],
      some "all \"accounts\"", .zero⟩ ⟨fun i => i == 1, 1⟩]

theorem unplaced_parse_roleItems :
    (Document.parse (String.ofList (schemaText roleItems))).unplaced =
      (documentOf roleItems).resolved.unplaced := by
  refine unplaced_parse_schemaText ⟨?_, by decide, by decide⟩
  have hid : Field.Spellable ⟨"id", "Int", .unknown, false, false, ["@id"], .zero⟩ := by
    refine ⟨by decide, by decide, List.forall_mem_singleton.2 ⟨?_, by decide⟩, by decide⟩
    exact ⟨"id".toList, [], rfl, rfl, Or.inl rfl, by cbv⟩
  have hroles : Field.Spellable ⟨"roles", "Role", .unknown, true, true,
      ["@default([USER], note: \"\x7b // ?\")"], .zero⟩ := by
    refine ⟨by decide, by decide, List.forall_mem_singleton.2 ⟨?_, by decide⟩, by decide⟩
    exact ⟨"default".toList, "([USER], note: \"\x7b // ?\")".toList, rfl, rfl,
      Or.inr ⟨"[USER], note: \"\x7b // ?\"".toList, rfl⟩, by cbv⟩
  have hfields := List.forall_mem_cons.2 ⟨hid, List.forall_mem_singleton.2 hroles⟩
  refine List.forall_mem_cons.2 ⟨⟨by decide, by decide⟩, List.forall_mem_singleton.2 ?_⟩
  exact ⟨by decide, hfields⟩

end Sieve.Schema
