import Sieve.Toml.Value

/-!
# Building a TOML document

A document is a sequence of statements: headers, and values assigned to keys. Each statement
extends the root table, or is refused because it would define something twice.

* A header goes through any table, and through the last table of an array of tables; what is
  missing on the way is made. It may take over a table that so far was only implied.
* A dotted key goes through tables that dotted keys made, and through implied ones, but the table
  that receives the value must be of the former kind.

## Main definitions

* `Table.assign` — a value under a dotted key
* `Table.updateAt` — a change to the table that a header leads to
* `Statement`, `Document`, `Document.apply` — statements, and what they do
-/

namespace Sieve.Toml

/-- Changes the last item. -/
def updateLast? {α : Type} (f : α → Option α) : List α → Option (List α)
  | [] => none
  | [a] => (f a).map fun b => [b]
  | a :: as => (updateLast? f as).map (a :: ·)

namespace Table

/-- Gives a value to a dotted key that has none. Tables made on the way are noted as dotted. -/
def assign (braced : Bool) : List String → Value → Table → Option Table
  | [], _, _ => none
  | [key], v, t => if Entries.contains t key then none else some (Entries.insert t key v)
  | key :: rest, v, t =>
    let isLast := rest.length = 1
    match Entries.get? t key with
    | none => (assign braced rest v []).map fun inner =>
        Entries.insert t key (.table (.dotted braced) inner)
    | some (.table origin inner) =>
      if origin = .dotted braced ∨ (origin = .implied ∧ ¬isLast) then
        (assign braced rest v inner).map fun inner => Entries.insert t key (.table origin inner)
      else none
    | some (.tables items) =>
      if isLast then none
      else (updateLast? (assign braced rest v) items).map fun items =>
        Entries.insert t key (.tables items)
    | some _ => none

/-- The table that assigning the pairs in turn makes. -/
def ofPairs? (pairs : List (List String × Value)) : Option Table :=
  pairs.foldlM (fun t p => assign true p.1 p.2 t) []

/-- Changes the table that a header's path leads to. -/
def updateAt (change : Table → Option Table) : List String → Table → Option Table
  | [], t => change t
  | key :: rest, t =>
    match Entries.get? t key with
    | none => (updateAt change rest []).map fun inner =>
        Entries.insert t key (.table .implied inner)
    | some (.table origin inner) =>
      if origin.isBraced then none
      else (updateAt change rest inner).map fun inner => Entries.insert t key (.table origin inner)
    | some (.tables items) =>
      (updateLast? (updateAt change rest) items).map fun items =>
        Entries.insert t key (.tables items)
    | some _ => none

/-- Gives a table its header. One that was implied so far moves behind the other entries. -/
def openTable (key : String) (t : Table) : Option Table :=
  match Entries.get? t key with
  | none => some (Entries.insert t key (.table .header []))
  | some (.table .implied inner) =>
    some (Entries.insert (Entries.erase t key) key (.table .header inner))
  | some _ => none

/-- Adds a table to an array of tables, which is made if it is missing. -/
def openItem (key : String) (t : Table) : Option Table :=
  match Entries.get? t key with
  | none => some (Entries.insert t key (.tables [[]]))
  | some (.tables items) => some (Entries.insert t key (.tables (items ++ [[]])))
  | some _ => none

end Table

/-- A statement of a document. -/
inductive Statement where
  /-- A header in brackets. -/
  | table (outer : List String) (key : String)
  /-- A header in double brackets. -/
  | item (outer : List String) (key : String)
  /-- A value for a dotted key. -/
  | assign (key : List String) (value : Value)

/-- A document that is being built: its root, and the path of the table that is open. -/
structure Document where
  root : Table := []
  current : List String := []

/-- What a statement does; `none` if it defines something twice. -/
def Document.apply (d : Document) : Statement → Option Document
  | .table outer key =>
    (Table.updateAt (Table.openTable key) outer d.root).map fun root => ⟨root, outer ++ [key]⟩
  | .item outer key =>
    (Table.updateAt (Table.openItem key) outer d.root).map fun root => ⟨root, outer ++ [key]⟩
  | .assign key v =>
    (Table.updateAt (Table.assign false key v) d.current d.root).map fun root =>
      { d with root := root }

end Sieve.Toml
