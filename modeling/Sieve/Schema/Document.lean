import Sieve.Schema.Model

/-!
# Schema documents

A document holds models and enums. Names are taken once: a later block of the same name is left out.
Types are looked up among the names of all blocks, so a reference to a block further down, or to one
that is left out, means the same as any other.

## Main definitions

* `Document`, `Document.addModel`, `Document.addEnum` — documents, and adding to them
* `Document.parse` — the document of a schema text
-/

namespace Sieve.Schema

/-- The models and enums of a schema. -/
structure Document where
  models : List Model
  enums : List Enum
deriving Repr, DecidableEq, Inhabited

namespace Document

/-- The document without models and enums. -/
def empty : Document := ⟨[], []⟩

/-- No models and no enums. -/
def isEmpty (d : Document) : Bool := d.models.isEmpty && d.enums.isEmpty

/-- The model of a name. -/
def model? (d : Document) (name : String) : Option Model := d.models.find? fun m => m.name == name

/-- The enum of a name. -/
def enum? (d : Document) (name : String) : Option Enum := d.enums.find? fun e => e.name == name

/-- The first model with the given name, its own or that in the database. -/
def modelOfTable? (d : Document) (table : String) : Option Model :=
  d.models.find? fun m => m.mapName == some table || m.name == table

/-- Adds a model, unless its name is taken. -/
def addModel (d : Document) (m : Model) : Document :=
  if (d.model? m.name).isSome then d else { d with models := d.models ++ [m] }

/-- Adds an enum, unless its name is taken. -/
def addEnum (d : Document) (e : Enum) : Document :=
  if (d.enum? e.name).isSome then d else { d with enums := d.enums ++ [e] }

/-- The document of blocks whose types are looked up among `names`. -/
def ofBlocks (names : Names) (bs : Blocks) : Document :=
  let d := (bs.enums.map Enum.ofBlock).foldl addEnum empty
  (bs.models.map (Model.ofBlock names)).foldl addModel d

/-- The document of a schema text. -/
def parse (source : String) : Document :=
  let bs := Blocks.extract source
  ofBlocks bs.names bs

/-- Number of fields of all models. -/
def fieldCount (d : Document) : Nat := d.models.foldl (fun n m => n + m.fields.length) 0

/-- Number of fields that refer to models. -/
def relationCount (d : Document) : Nat :=
  d.models.foldl (fun n m => n + (m.fields.filter Field.isRelation).length) 0

/-- The sizes of the document in words. -/
def summary (d : Document) : String :=
  toString d.models.length ++ " models, " ++ toString d.enums.length ++ " enums, " ++
    toString d.fieldCount ++ " fields, " ++ toString d.relationCount ++ " relations"

/-- The document as shown in messages. -/
def text (d : Document) : String := "SchemaDocument(" ++ d.summary ++ ")"

end Document

end Sieve.Schema
