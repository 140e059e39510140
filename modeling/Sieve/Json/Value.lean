import Sieve.Entries

/-!
# JSON values

A JSON document with its objects in the order of their keys. Whole numbers in the signed or
unsigned 64-bit range are kept exactly; every other number is a double.

Objects keep their pairs as a plain list: a reader of text writes them through `Entries.insert`, so
that no key is there twice.
-/

namespace Sieve

/-- A JSON value. -/
inductive Json where
  | null
  | bool (b : Bool)
  | int (i : Int)
  | float (x : Float)
  | string (s : String)
  | array (items : List Json)
  | object (entries : List (String × Json))
deriving Inhabited, BEq

namespace Json

/-- What a value is, in words with their article. -/
def describe : Json → String
  | null => "null"
  | bool _ => "a boolean"
  | int _ => "a number"
  | float _ => "a number"
  | string _ => "a string"
  | array _ => "an array"
  | object _ => "an object"

/-- A value that is an object. -/
def isObject : Json → Bool
  | object _ => true
  | _ => false

mutual

/-- The predicate holds of every key of every object in the value, at any depth. -/
def allKeys (p : String → Bool) : Json → Bool
  | array items => allKeysList p items
  | object entries => allKeysEntries p entries
  | _ => true

/-- `allKeys` of each item. -/
def allKeysList (p : String → Bool) : List Json → Bool
  | [] => true
  | v :: vs => v.allKeys p && allKeysList p vs

/-- `allKeys` of each entry, its own key included. -/
def allKeysEntries (p : String → Bool) : List (String × Json) → Bool
  | [] => true
  | (k, v) :: es => p k && v.allKeys p && allKeysEntries p es

end

end Json

end Sieve
