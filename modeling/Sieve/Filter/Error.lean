import Sieve.Json.Value
import Sieve.Provider

/-!
# Errors of filter compilation

Compiling leaves out what it cannot use; errors arise only where the caller asks for strictness,
where a provider is unknown, and where a document of parameters cannot be read. Every error has a
stable code, and says which key it is about and what to do.
-/

namespace Sieve.Filter

/-- Why filters cannot be compiled. -/
inductive Error where
  /-- A key whose path has no field. -/
  | emptyPath (key : String)
  /-- A direction of sorting that is none. -/
  | sortDirection (key : String)
  /-- A document of parameters that is no JSON. -/
  | unreadable
  /-- A document of parameters that is no object. -/
  | notAnObject (found : Json)
  /-- A provider nobody knows. -/
  | unknownProvider (name : String)
deriving Inhabited

namespace Error

/-- The stable code. -/
def code : Error → String
  | emptyPath _ => "Q1003"
  | sortDirection _ => "Q5003"
  | unreadable | notAnObject _ => "Q6003"
  | unknownProvider _ => "Q7001"

/-- Stands for the account that a JSON reader gives of a fault. -/
def readerAccount : String := "<json>"

/-- What is wrong. -/
def reason : Error → String
  | emptyPath key => "filter key '" ++ key ++ "' has no field path"
  | sortDirection key =>
    "invalid value for '" ++ key ++ "': sort direction must be `asc` or `desc`"
  | unreadable => "failed to decode query parameters: " ++ readerAccount
  | notAnObject found =>
    "failed to decode query parameters: expected a JSON object, found " ++ found.describe
  | unknownProvider name => "Unknown database provider '" ++ name ++ "'"

/-- The parameter that the error is about. -/
def key? : Error → Option String
  | emptyPath key | sortDirection key => some key
  | _ => none

/-- The rest of a key after the underscores that it begins with. -/
def withoutUnderscores (key : String) : String :=
  String.ofList (key.toList.dropWhile (· == '_'))

/-- A better key to write. -/
def hint? : Error → Option String
  | emptyPath key =>
    let op := withoutUnderscores key
    if op.isEmpty then none else some ("name a field first, e.g. `field__" ++ op ++ "`")
  | _ => none

/-- An explanation. -/
def help? : Error → Option String
  | unreadable | notAnObject _ => some "parameters must be a JSON object keyed by filter key"
  | unknownProvider _ =>
    some ("Expected one of: " ++ ", ".intercalate (Provider.all.map Provider.name))
  | _ => none

/-- The error in one line. -/
def message (e : Error) : String := "[" ++ e.code ++ "] " ++ e.reason

/-- The error with all that is known of it, one thing a line. -/
def report (e : Error) : String :=
  "\n".intercalate
    (["error[" ++ e.code ++ "]: " ++ e.reason] ++
      (e.key?.map ("  key: " ++ ·)).toList ++
      (e.hint?.map ("  hint: " ++ ·)).toList ++
      (e.help?.map ("  help: " ++ ·)).toList)

end Error

end Sieve.Filter
