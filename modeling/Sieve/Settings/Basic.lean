import Sieve.Filter.ModelFields
import Sieve.Provider

/-!
# Settings

What a project chooses once: its database, where its schema is, how parameters are compiled, and
how much is logged. An environment may override some of this; its overrides keep apart a section
that is not given from one that is given and leaves all open.

## Main definitions

* `Settings` — the choices, with defaults
* `Overrides` — the choices of an environment
* `Settings.inEnvironment` — the settings with an environment's overrides
-/

namespace Sieve

/-- Where the schema is. -/
structure SchemaSettings where
  /-- A schema file, or a directory of them. -/
  path : String := "./prisma"
  /-- The extensions of the files in a directory that count. -/
  extensions : List String := ["prisma"]
deriving Repr, DecidableEq, Inhabited

/-- How parameters are compiled. -/
structure FilterSettings where
  /-- Whether bad parameters are errors. -/
  strict : Bool := false
  /-- Parameters that are left out. -/
  ignored : List String := []
  /-- What fields hold. -/
  fields : Filter.Classification := {}
deriving Repr, DecidableEq, Inhabited

/-- Overrides of where the schema is. -/
structure SchemaOverrides where
  path : Option String := none
  extensions : Option (List String) := none
deriving Repr, DecidableEq, Inhabited

/-- Overrides of how parameters are compiled. -/
structure FilterOverrides where
  strict : Option Bool := none
  ignored : Option (List String) := none
deriving Repr, DecidableEq, Inhabited

/-- The overrides of an environment, section by section. The sections on the database and on
logging have one choice each. -/
structure Overrides where
  database : Option (Option Provider) := none
  schema : Option SchemaOverrides := none
  filter : Option FilterOverrides := none
  debug : Option (Option String) := none
deriving Repr, DecidableEq, Inhabited

/-- The choices of a project. -/
structure Settings where
  provider : Provider := .postgresql
  schema : SchemaSettings := {}
  filter : FilterSettings := {}
  logLevel : String := "warn"
  environments : Entries Overrides := []
deriving Repr, DecidableEq, Inhabited

namespace SchemaSettings

/-- The settings with overrides. -/
def overrideBy (s : SchemaSettings) (o : SchemaOverrides) : SchemaSettings :=
  ⟨o.path.getD s.path, o.extensions.getD s.extensions⟩

end SchemaSettings

namespace FilterSettings

/-- The settings with overrides; what fields hold is the same in every environment. -/
def overrideBy (s : FilterSettings) (o : FilterOverrides) : FilterSettings :=
  ⟨o.strict.getD s.strict, o.ignored.getD s.ignored, s.fields⟩

end FilterSettings

namespace Settings

/-- The settings with overrides. -/
def overrideBy (s : Settings) (o : Overrides) : Settings :=
  { s with
    provider := o.database.join.getD s.provider
    schema := s.schema.overrideBy (o.schema.getD {})
    filter := s.filter.overrideBy (o.filter.getD {})
    logLevel := o.debug.join.getD s.logLevel }

/-- The settings in an environment, whose overrides are used up. An environment that is not known
changes nothing. -/
def inEnvironment (s : Settings) (name : String) : Settings :=
  match s.environments.get? name with
  | none => s
  | some o => { s.overrideBy o with environments := s.environments.erase name }

end Settings

end Sieve
