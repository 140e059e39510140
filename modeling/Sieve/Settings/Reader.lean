import Sieve.LoadError
import Sieve.Settings.Basic
import Sieve.Settings.Variables
import Sieve.Toml.Reader

/-!
# Reading settings

Settings are a TOML document with one table for each section. A section may also be given as an
array of its values in order. Nothing that is not known is accepted, and whatever is wrong, the
error is the same.

## Main definitions

* `Section`, `Section.ofValue?` — the values of a section by name
* `Settings.ofTable?` — the settings of a document
* `Settings.ofText` — the settings of a text
-/

namespace Sieve

open Toml (Value)

/-! ### Values -/

/-- A text. -/
def textOf? : Value → Option String
  | .string s => some s
  | _ => none

/-- A truth value. -/
def flagOf? : Value → Option Bool
  | .boolean b => some b
  | _ => none

/-- A list of texts. -/
def textsOf? (v : Value) : Option (List String) := v.items?.bind fun items => items.mapM textOf?

/-- A value with nothing in it. -/
def isVacant : Value → Bool
  | .array items => items.isEmpty
  | .table _ entries => entries.isEmpty
  | _ => false

/-- A provider: its name, or a table with that name as its one key and a vacant value. -/
def providerOf? : Value → Option Provider
  | .string s => Provider.ofExactName? s
  | .table _ [(name, v)] => if isVacant v then Provider.ofExactName? name else none
  | _ => none

/-! ### Sections -/

/-- The values of a section by name. -/
abbrev Section := Entries Value

namespace Section

/-- The section with the given names. A table has no others. An array lists the values in the order
of the names and may go on; if it `isFull`, it may not end early. -/
def ofValue? (names : List String) (isFull : Bool) : Value → Option Section
  | .table _ entries =>
    if (Entries.keys entries).all names.contains then some entries else none
  | v => v.items?.bind fun items =>
    if isFull && items.length < names.length then none else some (names.zip items)

/-- The value of a name, or the default. -/
def getOr {α : Type} (s : Section) (name : String) (read? : Value → Option α) (default : α) :
    Option α :=
  match s.get? name with
  | none => some default
  | some v => read? v

/-- The value of a name, if it is given. -/
def getOption {α : Type} (s : Section) (name : String) (read? : Value → Option α) :
    Option (Option α) :=
  s.getOr name (fun v => (read? v).map some) none

end Section

/-- The section on the database. -/
def databaseOf? (v : Value) : Option Provider := do
  let s ← Section.ofValue? ["provider"] false v
  s.getOr "provider" providerOf? .postgresql

/-- The section on the schema. -/
def schemaOf? (v : Value) : Option SchemaSettings := do
  let s ← Section.ofValue? ["path", "extensions"] false v
  let default : SchemaSettings := {}
  let path ← s.getOr "path" textOf? default.path
  let extensions ← s.getOr "extensions" textsOf? default.extensions
  return ⟨path, extensions⟩

/-- The lists of fields by what they hold. -/
def fieldsOf? (v : Value) : Option Filter.Classification := do
  let s ← Section.ofValue? ["date", "boolean", "numeric"] false v
  let dates ← s.getOr "date" textsOf? []
  let booleans ← s.getOr "boolean" textsOf? []
  let numerics ← s.getOr "numeric" textsOf? []
  return ⟨dates, booleans, numerics⟩

/-- The section on filters. -/
def filterOf? (v : Value) : Option FilterSettings := do
  let s ← Section.ofValue? ["strict", "ignore_keys", "fields"] false v
  let strict ← s.getOr "strict" flagOf? false
  let ignored ← s.getOr "ignore_keys" textsOf? []
  let fields ← s.getOr "fields" fieldsOf? {}
  return ⟨strict, ignored, fields⟩

/-- The section on logging. -/
def debugOf? (v : Value) : Option String := do
  let s ← Section.ofValue? ["log_level"] false v
  s.getOr "log_level" textOf? "warn"

/-! ### Overrides -/

/-- Overrides of the database. -/
def databaseOverrideOf? (v : Value) : Option (Option Provider) := do
  let s ← Section.ofValue? ["provider"] true v
  s.getOption "provider" providerOf?

/-- Overrides of the schema. -/
def schemaOverridesOf? (v : Value) : Option SchemaOverrides := do
  let s ← Section.ofValue? ["path", "extensions"] true v
  let path ← s.getOption "path" textOf?
  let extensions ← s.getOption "extensions" textsOf?
  return ⟨path, extensions⟩

/-- Overrides of filters. -/
def filterOverridesOf? (v : Value) : Option FilterOverrides := do
  let s ← Section.ofValue? ["strict", "ignore_keys"] true v
  let strict ← s.getOption "strict" flagOf?
  let ignored ← s.getOption "ignore_keys" textsOf?
  return ⟨strict, ignored⟩

/-- Overrides of logging. -/
def debugOverrideOf? (v : Value) : Option (Option String) := do
  let s ← Section.ofValue? ["log_level"] true v
  s.getOption "log_level" textOf?

/-- The overrides of an environment. -/
def overridesOf? (v : Value) : Option Overrides := do
  let s ← Section.ofValue? ["database", "schema", "filter", "debug"] true v
  let database ← s.getOption "database" databaseOverrideOf?
  let schema ← s.getOption "schema" schemaOverridesOf?
  let filter ← s.getOption "filter" filterOverridesOf?
  let debug ← s.getOption "debug" debugOverrideOf?
  return ⟨database, schema, filter, debug⟩

/-- The overrides of each environment by name. -/
def environmentsOf? : Value → Option (Entries Overrides)
  | .table _ entries => entries.mapM fun e => (overridesOf? e.2).map fun o => (e.1, o)
  | _ => none

/-! ### Settings -/

namespace Settings

/-- The settings of a document. -/
def ofTable? (t : Toml.Table) : Option Settings := do
  let s ← Section.ofValue? ["database", "schema", "filter", "debug", "environments"] false
    (.table .header t)
  let provider ← s.getOr "database" databaseOf? .postgresql
  let schema ← s.getOr "schema" schemaOf? {}
  let filter ← s.getOr "filter" filterOf? {}
  let logLevel ← s.getOr "debug" debugOf? "warn"
  let environments ← s.getOr "environments" environmentsOf? []
  return ⟨provider, schema, filter, logLevel, environments⟩

/-- The settings of a text, in which environment variables are replaced first. -/
def ofText (vars : Variables) (text : String) : Except LoadError Settings :=
  match (Toml.read? (vars.expand text)).bind ofTable? with
  | some s => .ok s
  | none => .error .malformedSettings

end Settings

end Sieve
