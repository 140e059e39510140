import Sieve.Filter.Operand
import Sieve.Schema.Model

/-!
# What the fields of a model hold

Parameters arrive as text. A classification says which fields hold dates, truth values or numbers,
and text for such a field is converted. Conversion never fails: text that does not read as its kind
is kept. A field in several lists counts as a date before a truth value, and as a truth value before
a number.

A model of the schema gives a classification too, by the scalar types of its fields. Fields that
refer to models or enums are not classified.

## Main definitions

* `Classification`, `Classification.category` — the lists, and what they say of a field
* `Classification.coerceText`, `Classification.coerce` — conversion of text and of any JSON value
* `Classification.ofModel` — the classification that a model gives
-/

namespace Sieve.Filter

/-- What a field holds. -/
inductive Category where
  | date
  | boolean
  | numeric
  | other
deriving Repr, DecidableEq

/-- The category in words. -/
def Category.name : Category → String
  | date => "date"
  | boolean => "boolean"
  | numeric => "numeric"
  | other => "other"

/-- The fields that hold dates, truth values and numbers. -/
structure Classification where
  dates : List String := []
  booleans : List String := []
  numerics : List String := []
deriving Repr, DecidableEq, Inhabited

namespace Classification

/-- Adds the fields of another classification. -/
def merge (c d : Classification) : Classification :=
  ⟨c.dates ++ d.dates, c.booleans ++ d.booleans, c.numerics ++ d.numerics⟩

/-- No field is classified. -/
def isEmpty (c : Classification) : Bool :=
  c.dates.isEmpty && c.booleans.isEmpty && c.numerics.isEmpty

/-- What a field holds. -/
def category (c : Classification) (field : String) : Category :=
  if field ∈ c.dates then .date
  else if field ∈ c.booleans then .boolean
  else if field ∈ c.numerics then .numeric
  else .other

/-! ### Conversion -/

/-- The operand of a text in a category. Any text but `true` means false for a truth value. -/
def convert : Category → String → Operand
  | .date, s => ((Instant.read? s).map .instant).getD (.string s)
  | .boolean, s => .bool (Text.eqIgnoringCase s "true")
  | .numeric, s => (Operand.number? s).getD (.string s)
  | .other, s => .string s

/-- The operand of a text for a field. -/
def coerceText (c : Classification) (field s : String) : Operand := convert (c.category field) s

/-- The operand of a JSON value for a field: only text is converted. -/
def coerce (c : Classification) (field : String) : Json → Operand
  | .string s => c.coerceText field s
  | v => .ofJson v

end Classification

/-! ### Models -/

/-- What a field of a scalar type holds. -/
def Category.ofScalar (s : Schema.Scalar) : Category :=
  if s.isTemporal then date
  else if s = .boolean then boolean
  else if s.isNumeric then numeric
  else other

/-- The names of the fields of a category. -/
def fieldsOf (m : Schema.Model) (category : Category) : List String :=
  (m.fields.filter fun f => f.scalar?.map Category.ofScalar == some category).map Schema.Field.name

/-- The classification that a model gives. -/
def Classification.ofModel (m : Schema.Model) : Classification :=
  ⟨fieldsOf m .date, fieldsOf m .boolean, fieldsOf m .numeric⟩

end Sieve.Filter
