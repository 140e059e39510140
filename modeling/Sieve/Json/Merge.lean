import Sieve.Json.Value

/-!
# Merging JSON documents

A later document is laid over an earlier one: objects are merged key by key, lists are joined, and
anything else is replaced. Keys that could reach the prototype chain of a consumer are never
carried over, and are dropped from the objects that are merged into.

## Main definitions

* `isUnsafeKey` — the keys that are dropped
* `Json.sanitize` — drops them at every depth
* `Json.merge` — lays one value over another
-/

namespace Sieve

/-- The keys that reach a prototype chain. -/
def unsafeKeys : List String := ["__proto__", "constructor", "prototype"]

/-- The key is never carried over. -/
def isUnsafeKey (key : String) : Bool := unsafeKeys.contains key

/-- Drops the entries with unsafe keys. -/
def safeEntries {α : Type _} (es : List (String × α)) : List (String × α) :=
  es.filter fun e => !isUnsafeKey e.1

namespace Json

mutual

/-- Drops unsafe keys at every depth. -/
def sanitize : Json → Json
  | array items => array (sanitizeList items)
  | object entries => object (sanitizeEntries entries)
  | v => v

/-- Drops unsafe keys inside the items. -/
def sanitizeList : List Json → List Json
  | [] => []
  | v :: vs => sanitize v :: sanitizeList vs

/-- Drops unsafe keys among the entries and inside them. -/
def sanitizeEntries : List (String × Json) → List (String × Json)
  | [] => []
  | (k, v) :: es =>
    if isUnsafeKey k then sanitizeEntries es else (k, sanitize v) :: sanitizeEntries es

end

mutual

/-- Lays `source` over `target`. -/
def merge (target : Json) : Json → Json
  | object source =>
    match target with
    | object entries => object (mergeEntries (safeEntries entries) source)
    | _ => object (sanitizeEntries source)
  | array source =>
    match target with
    | array items => array (items ++ sanitizeList source)
    | _ => array (sanitizeList source)
  | v => v

/-- Lays entries over `target` in turn: merges into a key that is there, appends one that is not. -/
def mergeEntries (target : List (String × Json)) : List (String × Json) → List (String × Json)
  | [] => target
  | (k, v) :: es =>
    if isUnsafeKey k then mergeEntries target es
    else
      match Entries.get? target k with
      | some old => mergeEntries (Entries.insert target k (merge old v)) es
      | none => mergeEntries (target ++ [(k, sanitize v)]) es

end

end Json

end Sieve
