import Sieve.Json.Token

/-!
# Reading JSON

The tokens of a text drive a machine whose state is the stack of arrays and objects that are still
open. At most 127 may be open at once. A repeated key keeps its first place and its last value.

## Main definitions

* `Frame`, `State` — an open array or object, and what may come next
* `State.step` — what a token does
* `Json.read?` — the value of a text
-/

namespace Sieve.Json

/-- An array or an object that is still open. -/
inductive Frame where
  /-- An array with its items so far, the last one first. -/
  | array (items : List Json)
  /-- An object with its entries so far, and the key whose value is being read. -/
  | object (entries : List (String × Json)) (key : String)

/-- What may come next. -/
inductive State where
  /-- A value. -/
  | value (outer : List Frame)
  /-- The first item of an array, or its end. -/
  | item (outer : List Frame)
  /-- A key, or the end of the object if `mayClose`. -/
  | key (outer : List Frame) (entries : List (String × Json)) (mayClose : Bool)
  /-- The colon after a key. -/
  | colon (outer : List Frame) (entries : List (String × Json)) (key : String)
  /-- A value has ended: a separator or a closing bracket, or the end of the text. -/
  | after (outer : List Frame) (value : Json)

/-- How many arrays and objects may be open at once. -/
def maxDepth : Nat := 127

/-- The state after the first token of a value. -/
def beginValue (outer : List Frame) : Token → Option State
  | .scalar v => some (.after outer v)
  | .openArray => if outer.length < maxDepth then some (.item outer) else none
  | .openObject => if outer.length < maxDepth then some (.key outer [] true) else none
  | _ => none

/-- The state after one more token. -/
def State.step : State → Token → Option State
  | .value outer, t => beginValue outer t
  | .item outer, .closeArray => some (.after outer (.array []))
  | .item outer, t => beginValue (.array [] :: outer) t
  | .key outer entries true, .closeObject => some (.after outer (.object entries))
  | .key outer entries _, .scalar (.string k) => some (.colon outer entries k)
  | .colon outer entries k, .colon => some (.value (.object entries k :: outer))
  | .after (.array items :: outer) v, .comma => some (.value (.array (v :: items) :: outer))
  | .after (.array items :: outer) v, .closeArray =>
    some (.after outer (.array (v :: items).reverse))
  | .after (.object entries k :: outer) v, .comma =>
    some (.key outer (Entries.insert entries k v) false)
  | .after (.object entries k :: outer) v, .closeObject =>
    some (.after outer (.object (Entries.insert entries k v)))
  | _, _ => none

/-- The value that a finished run has read. -/
def State.result? : State → Option Json
  | .after [] v => some v
  | _ => none

/-- The value of a text; `none` if it is not one JSON document. -/
def read? (text : String) : Option Json := do
  let tokens ← tokens? text.toList
  let last ← tokens.foldlM State.step (.value [])
  last.result?

end Sieve.Json
