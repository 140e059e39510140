import Sieve.Filter.Key
import Sieve.Json.Value

/-!
# Filter triples

One parameter may hold a whole object of filters. It is flattened into triples: a path of fields, an
operator if the path ends in one, and a value as it was given. Objects are entered, in the order of
their keys; every other value, a list too, ends a path. An object without keys yields nothing.

## Main definitions

* `Triple`, `Triple.ofPath` — a flattened filter
* `keyPath` — the segments that a key adds to a path
* `triples` — the triples of a parameter
-/

namespace Sieve.Filter

/-- A flattened filter. -/
structure Triple where
  fields : List String
  operator : Option Operator
  value : Json
deriving Inhabited, BEq

/-- The triple of a complete path: an operator is looked for at its end only. -/
def Triple.ofPath (path : List String) (value : Json) : Triple :=
  let (fields, operator) := splitOperator path
  ⟨fields, operator, value⟩

/-- The path and the operator of a triple as a key. -/
def Triple.key (t : Triple) : Key := ⟨t.fields, t.operator⟩

/-- The segments that a key adds to a path: its pieces, if it uses a separator or a bracket, or
else the key itself, even if it is empty. -/
def keyPath (key : String) : List String :=
  if needsCutting key.toList then segments key else [key]

mutual

/-- The triples of a value at a path. -/
def triplesAt (path : List String) : Json → List Triple
  | .object entries => triplesOfEntries path entries
  | v => [Triple.ofPath path v]

/-- The triples of the entries of an object at a path. -/
def triplesOfEntries (path : List String) : List (String × Json) → List Triple
  | [] => []
  | (k, v) :: es => triplesAt (path ++ keyPath k) v ++ triplesOfEntries path es

end

/-- The triples of a parameter. -/
def triples (key : String) (value : Json) : List Triple := triplesAt (keyPath key) value

end Sieve.Filter
