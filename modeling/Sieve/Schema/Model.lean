import Sieve.Schema.Block
import Sieve.Schema.Field

/-!
# Models and enums

A model is a list of fields, perhaps with another name in the database; an enum is a list of values.

## Main definitions

* `Model`, `Model.ofBlock` — a model, and the model that a block declares
* `Enum`, `Enum.ofBlock` — an enum, and the enum that a block declares
-/

namespace Sieve.Schema

open Sieve.Text

/-- A model. -/
structure Model where
  name : String
  fields : List Field
  /-- Its name in the database, where it differs. -/
  mapName : Option String
  span : Span
deriving Repr, DecidableEq

/-- An enum. -/
structure Enum where
  name : String
  values : List String
  span : Span
deriving Repr, DecidableEq

namespace Model

/-- The first field of the given name. -/
def field? (m : Model) (name : String) : Option Field := m.fields.find? fun f => f.name == name

/-- The name in the database. -/
def table (m : Model) : String := m.mapName.getD m.name

/-- The field of a declaration. -/
def fieldOf? (names : Names) (bodyStart : Nat) : Declaration → Option Field
  | .field words => Field.ofWords? names bodyStart words
  | .directive _ => none

/-- The name that a `@@map("…")` directive gives. -/
def mapNameOf? : Declaration → Option String
  | .field _ => none
  | .directive w =>
    let word := String.ofList w.text
    if rawName word == "map" then
      ((Attribute.parse? word).bind Attribute.firstValue?).bind Attribute.Value.string?
    else none

/-- The model that a block declares. The first directive that gives a name counts. -/
def ofBlock (names : Names) (b : Block) : Model :=
  let ds := declarations b.body
  ⟨b.name, ds.filterMap (fieldOf? names b.bodyStart), ds.findSome? mapNameOf?, b.span⟩

end Model

namespace Enum

/-- The value is declared. -/
def contains (e : Enum) (value : String) : Bool := e.values.contains value

/-- The place of a value. -/
def position? (e : Enum) (value : String) : Option Nat := e.values.findIdx? (· == value)

/-- The value that a word of an enum's body declares: attributes and what begins unlike an
identifier declare none, and commas and semicolons at the end do not count. -/
def valueOf? : Token → Option String
  | .newline _ => none
  | .word w =>
    let value := (w.text.reverse.dropWhile fun c => c == ',' || c == ';').reverse
    if !w.isAttribute && value.head?.any isIdentStart then some (String.ofList value) else none

/-- The enum that a block declares. -/
def ofBlock (b : Block) : Enum := ⟨b.name, (tokens b.body).filterMap valueOf?, b.span⟩

end Enum

end Sieve.Schema
