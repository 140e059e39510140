import Sieve.Schema.Document

/-!
# Schema documents as JSON

The JSON form in which documents are handed to other programs.
-/

namespace Sieve.Schema

/-- A text, or null. -/
def optionalText (s : Option String) : Json := (s.map Json.string).getD .null

/-- A place in the source. -/
def Span.toJson (s : Span) : Json := .object [("start", .int s.start), ("end", .int s.stop)]

/-- What a field's type refers to. -/
def Kind.toJson : Kind → Json
  | scalar s => .object [("kind", .string "scalar"), ("scalar", .string s.name)]
  | enumeration => .object [("kind", .string "enum")]
  | relation => .object [("kind", .string "relation")]
  | unknown => .object [("kind", .string "unknown")]

/-- A field with all that its attributes say. -/
def Field.toJson (f : Field) : Json :=
  .object [("name", .string f.name), ("type", .string f.type), ("kind", f.kind.toJson),
    ("isArray", .bool f.isArray), ("isOptional", .bool f.isOptional), ("isId", .bool f.isId),
    ("isUnique", .bool f.isUnique), ("isRelation", .bool f.isRelation),
    ("connectionField", optionalText f.connection?),
    ("defaultValue", (f.default?.map Default.toJson).getD .null),
    ("attributes", .array (f.words.map .string)), ("span", f.span.toJson)]

/-- A model. -/
def Model.toJson (m : Model) : Json :=
  .object [("name", .string m.name), ("fields", .array (m.fields.map Field.toJson)),
    ("mapName", optionalText m.mapName), ("span", m.span.toJson)]

/-- An enum. -/
def Enum.toJson (e : Enum) : Json :=
  .object [("name", .string e.name), ("values", .array (e.values.map .string)),
    ("span", e.span.toJson)]

/-- A document. -/
def Document.toJson (d : Document) : Json :=
  .object [("models", .array (d.models.map Model.toJson)),
    ("enums", .array (d.enums.map Enum.toJson))]

end Sieve.Schema
