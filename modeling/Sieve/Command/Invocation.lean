import Sieve.Command.Arguments
import Sieve.Settings.Variables

/-!
# Invocations

The commands, their options, and which command the arguments ask for. Options before the name of a
command are those that every command has.

## Main definitions

* `Invocation` — a command with its options
* `Invocation.ofArguments` — the invocation that arguments spell
-/

namespace Sieve.Command

/-- Which settings a command uses. -/
structure SettingsChoice where
  /-- A settings file. -/
  file : Option String
  /-- An environment of the settings. -/
  environment : Option String
deriving Repr, DecidableEq, Inhabited

/-- The options of the command that shows a schema. -/
structure SchemaOptions where
  settings : SettingsChoice
  /-- A schema file, or a directory of them. -/
  schema : Option String
  /-- Whether the document is shown as JSON. -/
  asJson : Bool
deriving Repr, DecidableEq, Inhabited

/-- The options of the command that compiles a filter. -/
structure FilterOptions where
  settings : SettingsChoice
  /-- A query string. -/
  query : Option String
  /-- Files with parameters. -/
  parameters : List String
  /-- A model whose fields are classified. -/
  model : Option String
  /-- A schema file, or a directory of them, that has the model. -/
  schema : Option String
  /-- The name of a provider. -/
  provider : Option String
  /-- Whether bad parameters are errors. -/
  strict : Bool
deriving Repr, DecidableEq, Inhabited

/-- A command with its options. -/
inductive Invocation where
  | schema (options : SchemaOptions)
  | filter (options : FilterOptions)
  | version
deriving Repr, DecidableEq, Inhabited

/-! ### Options -/

/-- The options of every command. -/
def commonOptions : List OptionSpec :=
  [⟨"verbose", some 'v', .flag⟩, ⟨"help", some 'h', .help⟩, ⟨"version", some 'V', .version⟩]

/-- The options that choose settings. -/
def settingsOptions : List OptionSpec :=
  [⟨"config", some 'c', .path⟩, ⟨"env", none, .text⟩]

/-- What stands before the name of a command. -/
def leadSpec : Spec := ⟨commonOptions, 0⟩

/-- The arguments of the command that shows a schema. -/
def schemaSpec : Spec :=
  ⟨[⟨"schema", some 's', .path⟩, ⟨"json", none, .flag⟩] ++ settingsOptions ++ commonOptions, 0⟩

/-- The arguments of the command that compiles a filter. -/
def filterSpec : Spec :=
  ⟨[⟨"params", some 'p', .paths⟩, ⟨"model", some 'm', .text⟩, ⟨"schema", some 's', .path⟩,
    ⟨"provider", none, .text⟩, ⟨"strict", none, .flag⟩] ++ settingsOptions ++ commonOptions, 1⟩

/-- The arguments of the command that shows the version. -/
def versionSpec : Spec := ⟨commonOptions, 0⟩

/-! ### Reading -/

/-- The variable that names an environment of the settings, unless an option does. -/
def environmentVariable : String := "QUARRY_ENV"

/-- The choice of settings. -/
def settingsChoice (vars : Variables) (r : Reading) : SettingsChoice :=
  ⟨r.value? "config", (r.value? "env").or (vars.value? environmentVariable)⟩

/-- The invocation of a command by name; `none` if there is no such command. -/
def invocation? (vars : Variables) (command : String) (args : List String) :
    Option (Except UsageError Invocation) :=
  if command = "schema" then some ((schemaSpec.read args).map fun r =>
    .schema ⟨settingsChoice vars r, r.value? "schema", r.has "json"⟩)
  else if command = "filter" then some ((filterSpec.read args).map fun r =>
    .filter ⟨settingsChoice vars r, r.words.head?, r.values "params", r.value? "model",
      r.value? "schema", r.value? "provider", r.has "strict"⟩)
  else if command = "version" then some ((versionSpec.read args).map fun _ => .version)
  else none

/-- The name of the command that shows help, also on the command that it is given. -/
def helpName : String := "help"

/-- The word names a command. -/
def isCommand (w : String) : Bool := [helpName, "schema", "filter", "version"].contains w

/-- What asking for help gives: help on a command, or on all if none is given. -/
def helpOn : List String → UsageError
  | [] => .help
  | [w] => if isCommand w then .help else .unknownCommand
  | _ => .unknownCommand

/-- The invocation that arguments spell, after some that were read. -/
def invocationFrom (vars : Variables) (r : Reading) : List String → Except UsageError Invocation
  | [] => .error (if r.given.isEmpty then .nothingGiven else .missingCommand)
  | a :: rest =>
    match Argument.ofText a with
    | .separator =>
      match rest with
      | [] => .error (if r.given.isEmpty then .nothingGiven else .missingCommand)
      | w :: _ => .error (if isCommand w then .unknownArgument else .unknownCommand)
    | .long name value =>
      (leadSpec.readLong r name value).bind fun r => invocationFrom vars r rest
    | .short letters => (leadSpec.readShort r letters).bind fun r => invocationFrom vars r rest
    | .word w =>
      if w = helpName then .error (helpOn rest)
      else (invocation? vars w rest).getD (.error .unknownCommand)

/-- The invocation that arguments spell. -/
def Invocation.ofArguments (vars : Variables) (args : List String) :
    Except UsageError Invocation :=
  invocationFrom vars {} args

end Sieve.Command
