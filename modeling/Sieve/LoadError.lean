/-!
# Errors of loading

Schema text is never wrong: what does not read as a declaration is left out. Errors come from files
and from the settings alone.
-/

namespace Sieve

/-- Why a schema or the settings cannot be loaded. -/
inductive LoadError where
  /-- A file that is there and cannot be read. -/
  | unreadable (path : String)
  /-- A schema that is not there. -/
  | notFound (path : String)
  /-- Nothing was loaded that could be loaded again. -/
  | nothingLoaded
  /-- Settings that are not in order. -/
  | malformedSettings
deriving Repr, DecidableEq, Inhabited

namespace LoadError

/-- What is wrong. -/
def message : LoadError → String
  | unreadable path => "failed to read file: " ++ path
  | notFound path => "schema not found: " ++ path
  | nothingLoaded => "schema registry has no source to reload"
  | malformedSettings => "failed to parse TOML"

/-- The stable code. -/
def code : LoadError → String
  | unreadable _ => "quarry::schema::io_error"
  | notFound _ => "quarry::schema::not_found"
  | nothingLoaded => "quarry::schema::nothing_loaded"
  | malformedSettings => "quarry::schema::toml_error"

/-- What to do. -/
def help? : LoadError → Option String
  | notFound _ => some "set `schema.path` in quarry.toml or pass --schema"
  | _ => none

end LoadError

end Sieve
