import Sieve.Schema.Attribute.Reader
import Sieve.Schema.Declaration
import Sieve.Schema.Default
import Sieve.Schema.Scalar

/-!
# Fields

A field has a name and a type, the marks `[]` and `?`, and attribute words. What the attributes say,
such as whether the field identifies its model, is read off the words when it is asked for.

Some questions go to the words as written and some to the attributes that read well: whether a field
is unique does not depend on the arguments of `@unique`, but the value of `@map` is an argument.

## Main definitions

* `Field`, `Field.text` — a field, and its declaration as text
* `Field.isId`, `Field.isUnique`, `Field.default?`, `Field.connection?` — what its attributes say
* `splitMarks` — takes the marks off the end of a type
* `Field.ofWords?` — the field that the words of a declaration spell
-/

namespace Sieve.Schema

open Sieve.Text

/-- A field of a model. -/
structure Field where
  name : String
  /-- The name of the type, without marks. -/
  type : String
  kind : Kind
  isArray : Bool
  isOptional : Bool
  /-- The attribute words, as written. -/
  words : List String
  span : Span
deriving Repr, DecidableEq

namespace Field

/-- The attributes that read well. -/
def attributes (f : Field) : List Attribute := f.words.filterMap Attribute.parse?

/-- The first attribute of the given name that reads well. -/
def attribute? (f : Field) (name : String) : Option Attribute :=
  f.attributes.find? fun a => a.name == name

/-- The field refers to a model. -/
def isRelation (f : Field) : Bool := f.kind == .relation

/-- The scalar type of the field. -/
def scalar? (f : Field) : Option Scalar :=
  match f.kind with
  | .scalar s => some s
  | _ => none

/-- The field identifies its model: some word begins with `@id`. -/
def isId (f : Field) : Bool := f.words.any fun w => "@id".toList.isPrefixOf w.toList

/-- The field is unique. -/
def isUnique (f : Field) : Bool := f.words.any fun w => rawName w == "unique"

/-- The literal default of the field. -/
def default? (f : Field) : Option Default :=
  (f.words.find? fun w => rawName w == "default").bind Default.ofWord?

/-- The name of the field's column, where it differs. -/
def mapName? (f : Field) : Option String :=
  ((f.attribute? "map").bind Attribute.firstValue?).bind Attribute.Value.string?

/-- The first field that a relation word lists, as written. -/
def listedConnection? (f : Field) : Option String :=
  (f.words.filter fun w => rawName w == "relation").findSome? fun w => listedField? w.toList

/-- The field that holds the key of a relation to one record. A relation attribute that reads well
decides; without one, the words as written do. -/
def connection? (f : Field) : Option String :=
  if f.isRelation && !f.isArray then
    match f.attribute? "relation" with
    | some a => a.connection?
    | none => f.listedConnection?
  else none

/-- The declaration of the field. -/
def text (f : Field) : String :=
  f.name ++ " " ++ f.type ++ (if f.isArray then "[]" else "") ++
    (if f.isOptional then "?" else "") ++ String.join (f.words.map (" " ++ ·))

end Field

/-! ### Reading a declaration -/

/-- Takes `mark` off the end of a text. -/
def dropEnd? (mark cs : List Char) : Option (List Char) :=
  if mark.isSuffixOf cs then some (cs.take (cs.length - mark.length)) else none

/-- A type and its marks. -/
structure Marked where
  type : List Char
  isArray : Bool
  isOptional : Bool
deriving Repr

/-- Takes the marks `?` and `[]` off the end of a type; they may come in either order. -/
def splitMarks (cs : List Char) : Marked :=
  let (cs, outer) := match dropEnd? ['?'] cs with
    | some r => (r, true)
    | none => (cs, false)
  let (cs, array) := match dropEnd? ['[', ']'] cs with
    | some r => (r, true)
    | none => (cs, false)
  let (cs, inner) := match dropEnd? ['?'] cs with
    | some r => (r, true)
    | none => (cs, false)
  ⟨cs, array, outer || inner⟩

/-- The word is an attribute. -/
def Word.isAttribute (w : Word) : Bool := w.text.head? == some '@'

/-- The marks of a word that consists of nothing else. -/
def Word.marks? (w : Word) : Option Marked :=
  let m := splitMarks w.text
  if !w.isAttribute && m.type.isEmpty then some m else none

/-- The field that the words of a declaration spell: a name, a type, then attributes and marks in
any order; other words are passed over. A question mark anywhere makes the field optional. The body
of the model begins at byte `bodyStart`. -/
def Field.ofWords? (names : Names) (bodyStart : Nat) : List Word → Option Field
  | name :: type :: rest =>
    if name.startsIdent then
      let marked := splitMarks type.text
      let typeName := String.ofList marked.type
      let marks := rest.filterMap Word.marks?
      let all := name :: type :: rest
      some {
        name := String.ofList name.text
        type := typeName
        kind := Kind.resolve names typeName
        isArray := marked.isArray || marks.any Marked.isArray
        isOptional := all.any fun w => w.text.contains '?'
        words := (rest.filter Word.isAttribute).map fun w => String.ofList w.text
        span := (⟨name.span.start, (rest.getLast?.getD type).span.stop⟩ : Span).shift bodyStart }
    else none
  | _ => none

end Sieve.Schema
