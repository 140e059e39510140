import Sieve.Filter.Tree
import Sieve.Json.Merge

/-!
# Merging filter trees

A later tree is laid over an earlier one. Branches are merged key by key, alternatives and lists of
operands are joined, and conditions are combined by the key that they occupy. Where the two trees
differ in kind, the later one takes the place of the earlier. Unsafe keys are never carried over.

The definition follows the shape of `Json.merge`, one level up: it knows conditions and alternatives
where the JSON merge sees only objects and lists.

## Main definitions

* `Condition.combine`, `Condition.add` — two conditions with one key; a condition among others
* `Tree.sanitize` — drops unsafe keys at every depth
* `Tree.merge` — lays one tree over another
-/

namespace Sieve.Filter

namespace Condition

/-- Two conditions that occupy the same key: lists are joined, otherwise the later one stands. -/
def combine : Condition → Condition → Condition
  | member op vs, member _ ws => member op (vs ++ ws)
  | compare op (.list vs), compare _ (.list ws) => compare op (.list (vs ++ ws))
  | _, later => later

/-- Puts a condition among others: combined with the first one of its key, or else at the end. -/
def add : List Condition → Condition → List Condition
  | [], c => [c]
  | d :: ds, c => if d.key = c.key then combine d c :: ds else d :: add ds c

/-- Puts conditions among others in turn. -/
def addAll (target source : List Condition) : List Condition := source.foldl add target

end Condition

namespace Tree

mutual

/-- Drops unsafe keys at every depth. -/
def sanitize : Tree → Tree
  | or alternatives => or (sanitizeList alternatives)
  | nested branches => nested (sanitizeBranches branches)
  | t => t

/-- Drops unsafe keys inside alternatives. -/
def sanitizeList : List Tree → List Tree
  | [] => []
  | t :: ts => sanitize t :: sanitizeList ts

/-- Drops unsafe keys among branches and inside them. -/
def sanitizeBranches : List (String × Tree) → List (String × Tree)
  | [] => []
  | (k, t) :: bs =>
    if isUnsafeKey k then sanitizeBranches bs else (k, sanitize t) :: sanitizeBranches bs

end

mutual

/-- Lays `source` over `target`. -/
def merge (target : Tree) : Tree → Tree
  | nested source =>
    match target with
    | nested branches => nested (mergeBranches (safeEntries branches) source)
    | _ => nested (sanitizeBranches source)
  | or source =>
    match target with
    | or alternatives => or (alternatives ++ source)
    | _ => or (sanitizeList source)
  | conditions source =>
    match target with
    | conditions cs => conditions (Condition.addAll cs source)
    | _ => conditions source
  | equals v =>
    match target, v with
    | equals (.list vs), .list ws => equals (.list (vs ++ ws))
    | _, v => equals v

/-- Lays branches over `target` in turn: merges into a key that is there, appends one that is
not. -/
def mergeBranches (target : List (String × Tree)) : List (String × Tree) → List (String × Tree)
  | [] => target
  | (k, t) :: bs =>
    if isUnsafeKey k then mergeBranches target bs
    else
      match Entries.get? target k with
      | some old => mergeBranches (Entries.insert target k (merge old t)) bs
      | none => mergeBranches (target ++ [(k, sanitize t)]) bs

end

end Tree

end Sieve.Filter
