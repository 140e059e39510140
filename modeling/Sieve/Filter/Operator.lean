/-!
# Filter operators

The closed vocabulary of operators that may end a filter key. Spelling is exact: `notIn` is an
operator and `notin` the name of a field.

Operators fall into families by the condition that they compile to: a comparison with one value, a
membership test against a list, a substring test with or without regard to case, a disjunction, and
the two tests that are switched on by a truth value.

## Main definitions

* `Comparison`, `Membership`, `Mode` — the families with more than one member
* `Operator`, `Operator.name`, `Operator.ofName?` — the vocabulary and its spellings
-/

namespace Sieve.Filter

/-- Comparisons of a field with one value. -/
inductive Comparison where
  | equals
  | gt
  | gte
  | lt
  | lte
  | startsWith
  | endsWith
  | not
  | some
  | none
  | every
deriving Repr, DecidableEq

namespace Comparison

/-- The spelling in keys and in compiled filters. -/
def name : Comparison → String
  | equals => "equals"
  | gt => "gt"
  | gte => "gte"
  | lt => "lt"
  | lte => "lte"
  | startsWith => "startsWith"
  | endsWith => "endsWith"
  | not => "not"
  | some => "some"
  | none => "none"
  | every => "every"

/-- Comparisons that speak of related records. -/
def isRelational : Comparison → Bool
  | some | none | every => true
  | _ => false

end Comparison

/-- Tests of a field against a list. -/
inductive Membership where
  | isIn
  | notIn
  | hasSome
  | hasEvery
deriving Repr, DecidableEq

/-- The spelling in keys and in compiled filters. -/
def Membership.name : Membership → String
  | isIn => "in"
  | notIn => "notIn"
  | hasSome => "hasSome"
  | hasEvery => "hasEvery"

/-- Whether a substring test minds the case of letters. -/
inductive Mode where
  | sensitive
  | insensitive
deriving Repr, DecidableEq

/-- The spelling in compiled filters. -/
def Mode.name : Mode → String
  | sensitive => "sensitive"
  | insensitive => "insensitive"

/-- An operator that may end a filter key. -/
inductive Operator where
  /-- Compares with one value. -/
  | compare (op : Comparison)
  /-- Tests against a list. -/
  | member (op : Membership)
  /-- Tests for a substring. -/
  | contains (mode : Mode)
  /-- Holds when one of several values is equal. -/
  | or
  /-- Asks for null, when switched on. -/
  | isNull
  /-- Asks for the empty string, when switched on. -/
  | isEmpty
deriving Repr, DecidableEq

namespace Operator

/-- The whole vocabulary. -/
def all : List Operator :=
  [contains .insensitive, contains .sensitive, member .isIn, member .notIn, member .hasSome,
    member .hasEvery, or, isNull, isEmpty, compare .gt, compare .gte, compare .lt, compare .lte,
    compare .equals, compare .startsWith, compare .endsWith, compare .not, compare .some,
    compare .none, compare .every]

/-- The spelling at the end of a key. -/
def name : Operator → String
  | compare op => op.name
  | member op => op.name
  | contains .sensitive => "contains"
  | contains .insensitive => "icontains"
  | or => "or"
  | isNull => "isNull"
  | isEmpty => "isEmpty"

/-- The operator of a spelling. -/
def ofName? (s : String) : Option Operator := all.find? fun op => op.name == s

/-- The operator is written against a list. -/
def isMembership : Operator → Bool
  | member _ => true
  | _ => false

/-- The operator tests for a substring. -/
def isContainment : Operator → Bool
  | contains _ => true
  | _ => false

/-- The operator speaks of related records. -/
def isRelational : Operator → Bool
  | compare op => op.isRelational
  | _ => false

/-- The comparison that the operator compiles to. -/
def comparison? : Operator → Option Comparison
  | compare op => some op
  | _ => Option.none

/-- The membership test that the operator compiles to. -/
def membership? : Operator → Option Membership
  | member op => some op
  | _ => Option.none

theorem mem_all (op : Operator) : op ∈ all := by
  cases op with
  | compare op => cases op <;> decide
  | member op => cases op <;> decide
  | contains mode => cases mode <;> decide
  | or => decide
  | isNull => decide
  | isEmpty => decide

theorem name_of_ofName? {s : String} {op : Operator} (h : ofName? s = some op) : op.name = s := by
  simpa using List.find?_some h

end Operator

end Sieve.Filter
