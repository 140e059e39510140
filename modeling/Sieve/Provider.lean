import Sieve.Text.Basic

/-!
# Database providers

The databases a filter can be made for. A provider is known under its own name and, for some, under
a second one.
-/

namespace Sieve

/-- A database that filters are made for. -/
inductive Provider where
  | postgresql
  | mysql
  | sqlite
  | mongodb
  | sqlserver
  | cockroachdb
deriving Repr, DecidableEq, Inhabited

namespace Provider

/-- Every provider, in the order in which they are listed to users. -/
def all : List Provider := [postgresql, mysql, sqlite, mongodb, sqlserver, cockroachdb]

/-- The provider's own name. -/
def name : Provider → String
  | postgresql => "postgresql"
  | mysql => "mysql"
  | sqlite => "sqlite"
  | mongodb => "mongodb"
  | sqlserver => "sqlserver"
  | cockroachdb => "cockroachdb"

/-- Other names of the provider. -/
def aliases : Provider → List String
  | postgresql => ["postgres"]
  | sqlite => ["sqlite3"]
  | mongodb => ["mongo"]
  | sqlserver => ["mssql"]
  | mysql | cockroachdb => []

/-- The provider of a name or an alias, spelled exactly. -/
def ofExactName? (s : String) : Option Provider :=
  all.find? fun p => p.name == s || p.aliases.contains s

/-- The provider of a name or an alias, whatever the case of its letters. -/
def ofName? (s : String) : Option Provider := ofExactName? (Text.foldCase s)

/-- Substring tests may say whether case matters. -/
def hasCaseModes : Provider → Bool
  | postgresql | cockroachdb | mongodb => true
  | mysql | sqlite | sqlserver => false

end Provider

end Sieve
