import Sieve.Entries

/-!
# TOML values

A TOML document is a table of values. A table remembers how it came to be, because that decides
what may still be added to it: a table with a header of its own is not given a second one, and a
table in braces is complete when its brace closes.

## Main definitions

* `Origin` — how a table came to be
* `Value`, `Table` — values, and entries by key
-/

namespace Sieve.Toml

/-- How a table came to be. -/
inductive Origin where
  /-- It has a header. -/
  | header
  /-- It lies on the way of a longer header. -/
  | implied
  /-- It lies on the way of a dotted key, inside braces or not. -/
  | dotted (braced : Bool)
  /-- It is written in braces. -/
  | braces
deriving Repr, DecidableEq

/-- The table stands inside braces. -/
def Origin.isBraced : Origin → Bool
  | braces => true
  | dotted braced => braced
  | header | implied => false

/-- A value. -/
inductive Value where
  | string (text : String)
  | boolean (value : Bool)
  | integer (value : Int)
  | float (value : Float)
  /-- A date, a time of day, or both, as written. -/
  | moment (text : String)
  | array (items : List Value)
  | table (origin : Origin) (entries : List (String × Value))
  /-- The tables of one header in double brackets; the last one is still open. -/
  | tables (items : List (List (String × Value)))

/-- A table's entries. -/
abbrev Table := Entries Value

/-- The items of an array, also of one made by headers. -/
def Value.items? : Value → Option (List Value)
  | array items => some items
  | tables items => some (items.map (table .header))
  | _ => none

end Sieve.Toml
