import Sieve.Filter.Merge
import Sieve.Filter.ModelFields
import Sieve.Filter.Triple
import Sieve.Json.Writer
import Sieve.Provider
import Sieve.Text.Split

/-!
# Building one triple

A triple becomes a tree: its path, and at the end of it an operand, a condition, or a list of
alternatives. Text is converted by the category of the *outermost* field. A list may be written as
text with commas between its elements; there is no way to write a comma inside an element.

## Main definitions

* `Builder` — a classification and a provider
* `Builder.operandList`, `Builder.alternatives`, `Builder.condition` — the parts of a tree
* `Builder.build?` — the tree of a triple; none if its path is empty
-/

namespace Sieve.Filter

/-- The field whose children are directions of sorting. -/
def orderKey : String := "orderBy"

/-- Cuts a text at every comma. -/
def commaParts (s : String) : List String := (Text.splitAt ',' s.toList).map String.ofList

/-- The text `true` in any case, or the value true. -/
def isTruthy : Json → Bool
  | .string s => Text.eqIgnoringCase s "true"
  | .bool b => b
  | _ => false

/-- The text that a substring test looks for: null looks for nothing, and what is no text is
written as JSON. -/
def searchText : Json → String
  | .string s => s
  | .null => ""
  | v => v.compact

/-- What trees are built with: the categories of fields and the target. -/
structure Builder where
  classification : Classification
  provider : Provider
deriving Inhabited

namespace Builder

/-- The operands of a membership test: elements of a text between commas, or the items of a list;
texts are trimmed and converted. Any other value is the only element. -/
def operandList (b : Builder) (root : String) : Json → List Operand
  | .string s => (commaParts s).map fun part => b.classification.coerceText root (Text.trim part)
  | .array items => items.map fun item =>
    match item with
    | .string s => b.classification.coerceText root (Text.trim s)
    | v => .ofJson v
  | v => [b.classification.coerce root v]

/-- The operands of a disjunction: as for a membership test, but nothing is trimmed. -/
def alternatives (b : Builder) (root : String) : Json → List Operand
  | .string s => (commaParts s).map (b.classification.coerceText root)
  | .array items => items.map (b.classification.coerce root)
  | v => [b.classification.coerce root v]

/-- The mode of a substring test, if the provider has modes. -/
def mode? (b : Builder) (mode : Mode) : Option Mode :=
  if b.provider.hasCaseModes then some mode else none

/-- The leaf of a triple with an operator other than a disjunction. -/
def condition? (b : Builder) (root : String) (value : Json) : Operator → Option Condition
  | .compare op => some (.compare op (b.classification.coerce root value))
  | .member op => some (.member op (b.operandList root value))
  | .contains mode => some (.contains (searchText value) (b.mode? mode))
  | .isNull => some (if isTruthy value then .compare .equals .null else .unset)
  | .isEmpty => some (if isTruthy value then .compare .equals (.string "") else .unset)
  | .or => none

/-- The operand of a triple without operator. A direction of sorting is not converted. -/
def plainOperand (b : Builder) (root : String) (fields : List String) (value : Json) : Operand :=
  if root = orderKey ∧ fields.length = 2 then .ofJson value
  else b.classification.coerce root value

/-- The tree of a triple; none if its path is empty. -/
def build? (b : Builder) (t : Triple) : Option Tree :=
  match t.fields with
  | [] => none
  | root :: _ =>
    match t.operator with
    | none => some (.wrap t.fields (.equals (b.plainOperand root t.fields t.value)))
    | some op =>
      match b.condition? root t.value op with
      | some c => some (.wrap t.fields (.conditions [c]))
      | none =>
        some (.wrap [Tree.orKey]
          (.or ((b.alternatives root t.value).map fun v => .wrap t.fields (.equals v))))

end Builder

end Sieve.Filter
