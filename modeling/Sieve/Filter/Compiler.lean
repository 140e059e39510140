import Sieve.Filter.Build
import Sieve.Filter.Params

/-!
# Compiling parameters

Every parameter is flattened into triples, every triple is built into a tree, and the trees are
merged in order, so that a later parameter stands over an earlier one.

A triple without a path has no tree and is left out. A triple that gives a direction of sorting
which is none is kept. Both are *faults*: they are noted in the order in which they turn up, and a
strict compiler fails on the first one.

## Main definitions

* `Compiler` — a builder, the keys to ignore, and whether to be strict
* `Compiler.keyedTriples` — the triples of the parameters, with the keys they came from
* `Compilation`, `Compiler.compilation` — a tree with the faults noted on the way
* `Compiler.compile`, `Compiler.compileStrictly` — the tree, and failing on a fault
-/

namespace Sieve.Filter

/-- What parameters are compiled with. -/
structure Compiler extends Builder where
  strict : Bool
  ignored : List String
deriving Inhabited

/-- A direction of sorting. -/
def isSortDirection : Json → Bool
  | .string s => Text.eqIgnoringCase s "asc" || Text.eqIgnoringCase s "desc"
  | _ => false

/-- The triple gives a direction of sorting for a field. -/
def Triple.isOrdering (t : Triple) : Bool :=
  t.operator.isNone && t.fields.length == 2 && t.fields.head? == some orderKey

/-- A tree with the faults noted while it was made. -/
structure Compilation where
  tree : Tree
  faults : List Error
deriving Inhabited

namespace Compiler

/-- The triples of the parameters that are not ignored, each with the key it came from. -/
def keyedTriples (c : Compiler) (params : Params) : List (String × Triple) :=
  (params.filter fun p => !c.ignored.contains p.1).flatMap fun p =>
    (triples p.1 p.2).map fun t => (p.1, t)

/-- Notes a direction of sorting that is none. -/
def checkOrdering (key : String) (t : Triple) : List Error :=
  if t.isOrdering && !isSortDirection t.value then [.sortDirection key] else []

/-- Lays the tree of one more triple, which came from `key`, over what is compiled so far. -/
def add (c : Compiler) (r : Compilation) (key : String) (t : Triple) : Compilation :=
  let faults := r.faults ++ checkOrdering key t
  match c.build? t with
  | some subtree => ⟨r.tree.merge subtree, faults⟩
  | none => ⟨r.tree, faults ++ [.emptyPath key]⟩

/-- The tree of the parameters, and their faults. -/
def compilation (c : Compiler) (params : Params) : Compilation :=
  (c.keyedTriples params).foldl (fun r p => c.add r p.1 p.2) ⟨.empty, []⟩

/-- The tree of the parameters, whatever their faults. -/
def compile (c : Compiler) (params : Params) : Tree := (c.compilation params).tree

/-- The tree of the parameters; a strict compiler fails on their first fault. -/
def compileStrictly (c : Compiler) (params : Params) : Except Error Tree :=
  let r := c.compilation params
  match r.faults with
  | e :: _ => if c.strict then .error e else .ok r.tree
  | [] => .ok r.tree

end Compiler

end Sieve.Filter
