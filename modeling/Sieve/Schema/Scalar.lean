/-!
# Scalar types and what a type name means

The scalar keywords of the schema language, and the four things that the name of a field's type can
refer to.
-/

namespace Sieve.Schema

/-- A scalar type. -/
inductive Scalar where
  | int
  | bigInt
  | float
  | decimal
  | string
  | boolean
  | dateTime
  | date
  | time
  | json
  | bytes
  | uuid
deriving Repr, DecidableEq

namespace Scalar

/-- The keyword of a scalar type. -/
def name : Scalar → String
  | int => "Int"
  | bigInt => "BigInt"
  | float => "Float"
  | decimal => "Decimal"
  | string => "String"
  | boolean => "Boolean"
  | dateTime => "DateTime"
  | date => "Date"
  | time => "Time"
  | json => "Json"
  | bytes => "Bytes"
  | uuid => "Uuid"

/-- The scalar type of a keyword; truth values and UUIDs have a second one. -/
def ofName? (s : String) : Option Scalar :=
  match s with
  | "Int" => some int
  | "BigInt" => some bigInt
  | "Float" => some float
  | "Decimal" => some decimal
  | "String" => some string
  | "Boolean" | "Bool" => some boolean
  | "DateTime" => some dateTime
  | "Date" => some date
  | "Time" => some time
  | "Json" => some json
  | "Bytes" => some bytes
  | "Uuid" | "UUID" => some uuid
  | _ => none

/-- Values of the type are numbers. -/
def isNumeric : Scalar → Bool
  | int | bigInt | float | decimal => true
  | _ => false

/-- Values of the type are dates or times. -/
def isTemporal : Scalar → Bool
  | dateTime | date | time => true
  | _ => false

end Scalar

/-- The names of the models and enums of a schema. -/
structure Names where
  models : List String
  enums : List String
deriving Repr, Inhabited

/-- What the name of a field's type refers to. -/
inductive Kind where
  /-- A scalar type. -/
  | scalar (type : Scalar)
  /-- An enum of the schema. -/
  | enumeration
  /-- A model of the schema. -/
  | relation
  /-- Nothing known. -/
  | unknown
deriving Repr, DecidableEq

/-- What a name refers to: a model before an enum, and an enum before a scalar type. -/
def Kind.resolve (names : Names) (type : String) : Kind :=
  if type ∈ names.models then relation
  else if type ∈ names.enums then enumeration
  else
    match Scalar.ofName? type with
    | some s => scalar s
    | none => unknown

end Sieve.Schema
