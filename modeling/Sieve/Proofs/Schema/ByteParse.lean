import Sieve.Proofs.Schema.ByteWords

/-!
# Documents, byte by byte

A schema is read as a whole by scanners that know places in bytes only: blocks, words and the parts
of attributes are cut out by the places that are found, and the words of a declaration are told by
their numbers. All steps are checked: reading a byte, cutting a text, taking a word or the end of a
list of words, and closing a brace. No schema makes any of them go wrong, and what is read is the
document.

## Main definitions

* `Field.Reading`, `Field.cutReading?` — what the attributes of a field say
* `cutField?`, `cutModel?`, `cutEnum?` — fields, models and enums
* `Document.parseBytes?` — the document of a schema text

## Main results

* `cutReading?_eq`, `cutField?_eq`, `cutModel?_eq` — what is read of fields and models
* `Document.checked_steps_succeed` — no step goes wrong, and the document is the one that is read
  character by character
-/

namespace Sieve.Schema

open Sieve.Text

/-! ### What attributes say -/

/-- What is told of a field by the names and arguments of its attribute words. -/
structure Field.Reading where
  isUnique : Bool
  default : Option Default
  /-- The field that holds the key of a relation. -/
  connection : Option String

namespace Field

/-- What the attribute words of a field say. -/
def reading (f : Field) : Reading := ⟨f.isUnique, f.default?, f.connection?⟩

/-- The default of the first word with that name. -/
def cutDefaultOf? (words : List String) : Option (Option Default) := do
  match ← words.findM? fun w => (cutName? w).map (· == "default") with
  | none => return none
  | some word =>
    match ← cutArgument? word with
    | none => return none
    | some text => cutDefault? text

/-- The field that holds the key of a relation to one record. -/
def cutConnection? (f : Field) : Option (Option String) :=
  if f.isRelation && !f.isArray then
    match f.attribute? "relation" with
    | some a => some a.connection?
    | none =>
      f.words.findSomeM? fun w => (cutName? w).map fun name =>
        if name == "relation" then listedField? w.toList else none
  else some none

/-- What the attribute words of a field say, with all parts of words cut out by their places. -/
def cutReading? (f : Field) : Option Reading := do
  let isUnique ← f.words.anyM fun w => (cutName? w).map (· == "unique")
  let default ← cutDefaultOf? f.words
  let connection ← f.cutConnection?
  return ⟨isUnique, default, connection⟩

theorem cutDefaultOf?_eq (f : Field) : cutDefaultOf? f.words = some f.default? := by
  have hfind : (f.words.findM? fun w => some (rawName w == "default")) =
      some (f.words.find? fun w => rawName w == "default") := List.findM?_pure _ _
  simp only [cutDefaultOf?, cutName?_eq, cutArgument?_eq, cutDefault?_eq, Option.map_some, hfind,
    default?, Option.bind_eq_bind, Option.bind_some]
  cases f.words.find? fun w => rawName w == "default" with
  | none => rfl
  | some word =>
    rw [Option.bind_some, Default.ofWord?]
    cases hargument : firstArgument? word with
    | none => simp only [hargument]; rfl
    | some text => simp only [hargument]; rfl

theorem cutConnection?_eq (f : Field) : f.cutConnection? = some f.connection? := by
  have hlisted : (f.words.findSomeM? fun w =>
      some (if rawName w == "relation" then listedField? w.toList else none)) =
      some f.listedConnection? := by
    rw [listedConnection?, ← List.head?_filterMap, List.filterMap_filter, List.head?_filterMap]
    exact List.findSomeM?_pure
  simp only [cutConnection?, connection?, cutName?_eq, Option.map_some, hlisted]
  split
  · cases f.attribute? "relation" <;> rfl
  · rfl

/-- **What the attributes say is read without a wrong step.** -/
theorem cutReading?_eq (f : Field) : f.cutReading? = some f.reading := by
  have hunique : (f.words.anyM fun w => some (rawName w == "unique")) = some f.isUnique :=
    List.anyM_pure
  simp only [cutReading?, cutName?_eq, Option.map_some, hunique, cutDefaultOf?_eq,
    cutConnection?_eq]
  rfl

end Field

/-! ### Declarations -/

/-- The words of a declaration from number `n` on. -/
def wordsFrom? (n : Nat) (words : List Word) : Option (List Word) :=
  if n ≤ words.length then some (words.drop n) else none

/-- The last word of a declaration, by its number. -/
def lastWord? (words : List Word) : Option Word :=
  if words.length = 0 then none else words[words.length - 1]?

variable (names : Names) (bodyStart : Nat)

/-- The field that the words of a declaration spell, told by their numbers; none inside of the
result if they spell none. What its attributes say is read with it. -/
def cutField? (words : List Word) : Option (Option Field) :=
  match words with
  | name :: type :: _ =>
    if name.startsIdent then do
      let rest ← wordsFrom? 2 words
      let first ← words[0]?
      let last ← lastWord? words
      let marked := splitMarks type.text
      let typeName := String.ofList marked.type
      let marks := rest.filterMap Word.marks?
      let field : Field := {
        name := String.ofList name.text
        type := typeName
        kind := Kind.resolve names typeName
        isArray := marked.isArray || marks.any Marked.isArray
        isOptional := words.any fun w => w.text.contains '?'
        words := (rest.filter Word.isAttribute).map fun w => String.ofList w.text
        span := (⟨first.span.start, last.span.stop⟩ : Span).shift bodyStart }
      let _ ← field.cutReading?
      return some field
    else some none
  | _ => some none

/-- **A field is read without a wrong step.** -/
theorem cutField?_eq (words : List Word) :
    cutField? names bodyStart words = some (Field.ofWords? names bodyStart words) := by
  rcases words with _ | ⟨name, _ | ⟨type, rest⟩⟩
  · rfl
  · rfl
  · have hlast : lastWord? (name :: type :: rest) = some (rest.getLast?.getD type) := by
      rw [lastWord?, if_neg (by simp), ← List.getLast?_eq_getElem?,
        List.getLast?_cons_cons, List.getLast?_cons]
    have hrest : wordsFrom? 2 (name :: type :: rest) = some rest := if_pos (Nat.le_add_left _ _)
    rw [cutField?, Field.ofWords?, hlast, hrest]
    simp only [Field.cutReading?_eq]
    cases name.startsIdent <;> rfl

/-- The field of a declaration; none inside of the result if it is none. -/
def cutFieldOf? : Declaration → Option (Option Field)
  | .field words => cutField? names bodyStart words
  | .directive _ => some none

/-- The name that a `@@map("…")` directive gives, with the name of the directive cut out; none
inside of the result if there is none. -/
def cutMapName? : Declaration → Option (Option String)
  | .field _ => some none
  | .directive w =>
    let word := String.ofList w.text
    (cutName? word).map fun name =>
      if name == "map" then
        ((Attribute.parse? word).bind Attribute.firstValue?).bind Attribute.Value.string?
      else none

theorem cutFieldOf?_eq (d : Declaration) :
    cutFieldOf? names bodyStart d = some (Model.fieldOf? names bodyStart d) := by
  cases d with
  | field words => exact cutField?_eq names bodyStart words
  | directive w => rfl

theorem cutMapName?_eq (d : Declaration) : cutMapName? d = some (Model.mapNameOf? d) := by
  cases d with
  | field words => rfl
  | directive w =>
    rw [cutMapName?, cutName?_eq]
    rfl

/-! ### Documents -/

/-- The declarations in a body. -/
def cutDeclarations? (body : String) : Option (List Declaration) :=
  (scanTokens? body.toList 0).map (group [])

/-- The model that a block declares. -/
def cutModel? (b : Block) : Option Model := do
  let declarations ← cutDeclarations? b.body
  let fields ← declarations.mapM (cutFieldOf? names b.bodyStart)
  let mapNames ← declarations.mapM cutMapName?
  return ⟨b.name, fields.filterMap id, mapNames.findSome? id, b.span⟩

/-- The enum that a block declares. -/
def cutEnum? (b : Block) : Option Enum := do
  let tokens ← scanTokens? b.body.toList 0
  return ⟨b.name, tokens.filterMap Enum.valueOf?, b.span⟩

/-- **Words are read without a wrong step**, from the start of a body on. -/
theorem scanTokens?_eq (body : String) : scanTokens? body.toList 0 = some (tokens body) :=
  scanTokens?_bytes [] body.toList

/-- **Blocks are read without a wrong step**, from the start of a schema on. -/
theorem scanBlocks?_eq (source : String) : scanBlocks? source.toList 0 0 = some (blocks source) :=
  scanBlocks?_bytes [] source.toList 0

theorem cutModel?_eq (b : Block) : cutModel? names b = some (Model.ofBlock names b) := by
  obtain ⟨ds, hds⟩ : ∃ ds, ds = declarations b.body := ⟨_, rfl⟩
  have hdeclarations : cutDeclarations? b.body = some ds := by
    rw [cutDeclarations?, scanTokens?_eq, hds]
    rfl
  have hfields : ds.mapM (cutFieldOf? names b.bodyStart) =
      some (ds.map (Model.fieldOf? names b.bodyStart)) := by
    rw [funext (cutFieldOf?_eq names b.bodyStart)]
    exact List.mapM_pure
  have hmapNames : ds.mapM cutMapName? = some (ds.map Model.mapNameOf?) := by
    rw [funext cutMapName?_eq]
    exact List.mapM_pure
  rw [cutModel?, hdeclarations, Model.ofBlock, ← hds]
  simp only [Option.bind_eq_bind, Option.bind_some, hfields, hmapNames, List.filterMap_map,
    List.findSome?_map]
  rfl

theorem cutEnum?_eq (b : Block) : cutEnum? b = some (Enum.ofBlock b) := by
  rw [cutEnum?, scanTokens?_eq]
  rfl

namespace Document

/-- The document of a schema text, read by places in bytes. -/
def parseBytes? (source : String) : Option Document := do
  let found := Blocks.ofList (← scanBlocks? source.toList 0 0)
  let enums ← found.enums.mapM cutEnum?
  let models ← found.models.mapM (cutModel? found.names)
  return models.foldl addModel (enums.foldl addEnum empty)

theorem parseBytes?_eq (source : String) : parseBytes? source = some (parse source) := by
  have henums : ∀ bs : List Block, bs.mapM cutEnum? = some (bs.map Enum.ofBlock) := by
    intro bs
    rw [funext cutEnum?_eq]
    exact List.mapM_pure
  have hmodels : ∀ (names : Names) (bs : List Block),
      bs.mapM (cutModel? names) = some (bs.map (Model.ofBlock names)) := by
    intro names bs
    rw [funext (cutModel?_eq names)]
    exact List.mapM_pure
  simp only [parseBytes?, scanBlocks?_eq, Option.bind_eq_bind, Option.bind_some, henums, hmodels]
  rfl

/-- **No step of reading a schema goes wrong**, whatever its text: each scanner has a result, and
reads what is read character by character. A result means that all bytes and words that it looked at
are there, that all its cuts are between two characters, and that no brace was closed at depth
zero. -/
theorem checked_steps_succeed :
    (∀ source : String, parseBytes? source = some (parse source)) ∧
    (∀ source : String, scanBlocks? source.toList 0 0 = some (blocks source)) ∧
    (∀ xs ys : List Char,
      (closingBrace? (bytes (xs ++ '\x7b' :: ys)) 0 (byteLength xs)).isSome) ∧
    (∀ body : String, scanTokens? body.toList 0 = some (tokens body)) ∧
    (∀ (names : Names) (bodyStart : Nat) (words : List Word),
      cutField? names bodyStart words = some (Field.ofWords? names bodyStart words)) ∧
    (∀ f : Field, f.cutReading? = some f.reading) ∧
    (∀ word : String, cutName? word = some (rawName word)) ∧
    (∀ word : String, cutArgument? word = some (firstArgument? word)) ∧
    ∀ text : String, cutDefault? text = some (Default.ofText? text) := by
  refine ⟨parseBytes?_eq, scanBlocks?_eq, fun xs ys => ?_, scanTokens?_eq, cutField?_eq,
    Field.cutReading?_eq, cutName?_eq, cutArgument?_eq, cutDefault?_eq⟩
  rw [closingBrace?_brace, Option.isSome_some]

end Document

end Sieve.Schema
