import Sieve.Filter.Operator
import Sieve.Filter.Operand

/-!
# Filter trees

A compiled filter. Branches are keyed by fields; a leaf is a bare operand, meaning equality, or the
conditions put on one field. Alternatives stand under the reserved key `OR`.

A tree is written as JSON: a branch as an object, alternatives as a list, an operand as its value,
and the conditions of a field as one object in which each condition occupies a key.

## Main definitions

* `Condition`, `Condition.key` — one operator applied to a field, and the key it occupies
* `Tree`, `Tree.wrap`, `Tree.getPath?` — trees, putting a path in front, and following one
* `Tree.toJson` — the JSON value of a tree
-/

namespace Sieve.Filter

/-- One operator applied to a field. -/
inductive Condition where
  /-- A comparison with one operand. -/
  | compare (op : Comparison) (operand : Operand)
  /-- A substring test; the mode is left out where the provider has none. -/
  | contains (text : String) (mode : Option Mode)
  /-- A membership test. -/
  | member (op : Membership) (operands : List Operand)
  /-- A test for null or the empty string that was not switched on. It asks for nothing. -/
  | unset
deriving Inhabited, BEq

namespace Condition

/-- The key that the condition occupies. Of two conditions with one key only one can stand. -/
def key : Condition → String
  | compare op _ => op.name
  | contains _ _ => "contains"
  | member op _ => op.name
  | unset => "equals"

/-- What the condition adds to the object of its field. -/
def entries : Condition → List (String × Json)
  | compare op v => [(op.name, v.toJson)]
  | contains text mode =>
    ("contains", .string text) :: (mode.map fun m => ("mode", .string m.name)).toList
  | member op vs => [(op.name, .array (Operand.toJsonList vs))]
  | unset => []

end Condition

/-- A compiled filter. -/
inductive Tree where
  /-- A bare operand: equality. -/
  | equals (operand : Operand)
  /-- The conditions on one field. -/
  | conditions (cs : List Condition)
  /-- Alternatives. -/
  | or (alternatives : List Tree)
  /-- Branches keyed by field. -/
  | nested (branches : List (String × Tree))
deriving Inhabited, BEq

namespace Tree

/-- The key that holds alternatives. -/
def orKey : String := "OR"

/-- The branch without children, which filters nothing. -/
def empty : Tree := nested []

/-- A branch without children. -/
def isEmpty : Tree → Bool
  | nested [] => true
  | _ => false

/-- Puts a branch for each field in front of a tree, outermost first. -/
def wrap (fields : List String) (leaf : Tree) : Tree :=
  fields.foldr (fun field inner => nested [(field, inner)]) leaf

@[simp] theorem wrap_nil (leaf : Tree) : wrap [] leaf = leaf := rfl

@[simp] theorem wrap_cons (field : String) (fields : List String) (leaf : Tree) :
    wrap (field :: fields) leaf = nested [(field, wrap fields leaf)] := rfl

/-- The keys of a branch. -/
def keys : Tree → List String
  | nested branches => Entries.keys branches
  | _ => []

/-- The child of a branch under a key. -/
def get? : Tree → String → Option Tree
  | nested branches, key => Entries.get? branches key
  | _, _ => none

/-- The tree at the end of a path of keys. -/
def getPath? (t : Tree) : List String → Option Tree
  | [] => some t
  | key :: path => (t.get? key).bind fun child => child.getPath? path

mutual

/-- The JSON value of a tree. -/
def toJson : Tree → Json
  | equals v => v.toJson
  | conditions cs => .object (cs.flatMap Condition.entries)
  | or alternatives => .array (toJsonList alternatives)
  | nested branches => .object (toJsonBranches branches)

/-- The JSON values of alternatives. -/
def toJsonList : List Tree → List Json
  | [] => []
  | t :: ts => t.toJson :: toJsonList ts

/-- The entries of a branch. -/
def toJsonBranches : List (String × Tree) → List (String × Json)
  | [] => []
  | (k, t) :: bs => (k, t.toJson) :: toJsonBranches bs

end

end Tree

end Sieve.Filter
