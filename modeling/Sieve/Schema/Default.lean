import Sieve.Decimal.Layout
import Sieve.Json.Value
import Sieve.Schema.Attribute.Raw
import Sieve.Schema.Attribute.Token

/-!
# Default values

The value of a `@default(…)` attribute, where it is a literal: a string, a truth value, a number, or
the name of an enum's value. What the database makes up itself, such as `now()`, has no value here.

## Main definitions

* `Default` — a literal default
* `Default.ofText?` — the default that an argument's text spells
* `Default.ofWord?` — the default of an attribute word
-/

namespace Sieve.Schema

open Sieve.Text

/-- A literal default. -/
inductive Default where
  | string (s : String)
  | bool (b : Bool)
  | int (i : Int)
  | float (x : Float)
  /-- The name of an enum's value. -/
  | literal (name : String)
deriving Repr, BEq

namespace Default

/-- The text of a string or a name. -/
def string? : Default → Option String
  | string s | literal s => some s
  | _ => none

/-- The whole number. -/
def int? : Default → Option Int
  | int i => some i
  | _ => none

/-- The number as a double. -/
def float? : Default → Option Float
  | float x => some x
  | int i => some (Float.ofInt i)
  | _ => none

/-- The truth value. -/
def bool? : Default → Option Bool
  | bool b => some b
  | _ => none

/-- The default as shown to people: strings in quotes, without escapes. -/
def text : Default → String
  | string s => "\"" ++ s ++ "\""
  | bool b => if b then "true" else "false"
  | int i => toString i
  | float x => Decimal.Layout.plain.write x
  | literal s => s

/-- The plain JSON value. -/
def toJson : Default → Json
  | string s | literal s => .string s
  | bool b => .bool b
  | int i => .int i
  | float x => if x.isFinite then .float x else .null

/-- Some digits, with an optional minus in front. -/
def isWhole (cs : List Char) : Bool :=
  let digits := match cs with
    | '-' :: r => r
    | r => r
  !digits.isEmpty && digits.all isAsciiDigit

/-- A whole number, a point, and some digits. -/
def isFraction (cs : List Char) : Bool :=
  let fraction := (cs.dropWhile (· ≠ '.')).drop 1
  isWhole (cs.takeWhile (· ≠ '.')) && !fraction.isEmpty && fraction.all isAsciiDigit

/-- The inside of a text in double quotes. -/
def insideQuotes? : List Char → Option (List Char)
  | '"' :: cs => if cs.getLast? = some '"' then some cs.dropLast else none
  | _ => none

/-- The default that the text of an argument spells, blanks around it left out. A text with a
parenthesis outside of quotes has no literal value. -/
def ofText? (s : String) : Option Default :=
  let cs := trimChars s.toList
  match insideQuotes? cs with
  | some inside => some (string (String.ofList (Attribute.unescape inside)))
  | none =>
    if '(' ∈ cs then none
    else if cs = "true".toList then some (bool true)
    else if cs = "false".toList then some (bool false)
    else if isWhole cs then
      match Decimal.int? cs with
      | some i => some (int i)
      | none => (Decimal.float? cs).map float
    else if isFraction cs then (Decimal.float? cs).map float
    else if isIdent cs then some (literal (String.ofList cs))
    else none

/-- The default of an attribute word. -/
def ofWord? (word : String) : Option Default := (firstArgument? word).bind ofText?

end Default

end Sieve.Schema
