import Sieve.Json.Value
import Sieve.Instant.Text
import Sieve.Decimal.Reading

/-!
# Operands

The values that fields are compared with. They are JSON values, with instants in addition, which
are written as text; a JSON object is carried along as it is.

Numbers keep to two kinds: a whole number in the signed 64-bit range is exact, any other number is
a double.
-/

namespace Sieve.Filter

/-- A value that a field is compared with. -/
inductive Operand where
  | null
  | bool (b : Bool)
  | int (i : Int)
  | float (x : Float)
  | string (s : String)
  | instant (t : Instant)
  | list (items : List Operand)
  | object (entries : List (String × Json))
deriving Inhabited, BEq

namespace Operand

mutual

/-- The operand of a JSON value. -/
def ofJson : Json → Operand
  | .null => null
  | .bool b => bool b
  | .int i => if Decimal.fits i then int i else float (Float.ofInt i)
  | .float x => float x
  | .string s => string s
  | .array items => list (ofJsonList items)
  | .object entries => object entries

/-- The operands of JSON values. -/
def ofJsonList : List Json → List Operand
  | [] => []
  | v :: vs => ofJson v :: ofJsonList vs

end

mutual

/-- The JSON value of an operand; an instant becomes its text. A double that is not finite has no
JSON form and becomes null. -/
def toJson : Operand → Json
  | null => .null
  | bool b => .bool b
  | int i => .int i
  | float x => if x.isFinite then .float x else .null
  | string s => .string s
  | instant t => .string t.text
  | list items => .array (toJsonList items)
  | object entries => .object entries

/-- The JSON values of operands. -/
def toJsonList : List Operand → List Json
  | [] => []
  | v :: vs => toJson v :: toJsonList vs

end

theorem ofJsonList_eq_map (vs : List Json) : ofJsonList vs = vs.map ofJson := by
  induction vs with
  | nil => rfl
  | cons v vs ih => simp [ofJsonList, ih]

theorem toJsonList_eq_map (vs : List Operand) : toJsonList vs = vs.map toJson := by
  induction vs with
  | nil => rfl
  | cons v vs ih => simp [toJsonList, ih]

/-- A whole number, or failing that a finite double, blanks around it ignored. -/
def number? (s : String) : Option Operand :=
  let cs := Text.trimChars s.toList
  match Decimal.int? cs with
  | some i => some (int i)
  | none => ((Decimal.float? cs).filter Float.isFinite).map float

end Operand

end Sieve.Filter
