import Sieve.Command.Invocation
import Sieve.Command.Style
import Sieve.Filter.ModelFields
import Sieve.Schema.Form
import Sieve.Settings.Load
import Sieve.Source.Registry

/-!
# Running commands

A command reads files and environment variables, and either fails or writes its output; a command
that fails has written nothing.

## Main definitions

* `World` — what a command may read
* `Error` — why a command fails
* `settingsFor`, `schemaPath` — the settings and the schema that a command uses
* `Invocation.run` — what a command writes
-/

namespace Sieve.Command

open Files (Node ReadError)

/-- What a command may read: the files below the current directory, and the environment. -/
structure World where
  files : Node
  environment : Variables

/-- Why a command fails. -/
inductive Error where
  /-- The settings file that was asked for is none. -/
  | missingSettings (path : String)
  | load (cause : LoadError)
  | filter (cause : Filter.Error)
  /-- The schema has no model of that name. -/
  | unknownModel (name path : String) (known : List String)
  /-- No parameters are given. -/
  | nothingToCompile
  /-- A file of parameters cannot be read. -/
  | unreadableParameters (path : String) (cause : ReadError)
deriving Inhabited

/-- What went wrong. -/
def Error.message : Error → String
  | missingSettings path => "Configuration error: Config file not found: " ++ path
  | load cause => "Schema error: " ++ cause.message
  | filter cause => "Filter error: " ++ cause.message
  | unknownModel name path known =>
    "Command error: Model '" ++ name ++ "' not found in " ++ path ++ " (known models: " ++
      (if known.isEmpty then "none" else ", ".intercalate known) ++ ")"
  | nothingToCompile =>
    "Command error: Nothing to compile: pass a query string or --params FILE"
  | unreadableParameters path cause =>
    "Command error: Failed to read " ++ path ++ ": " ++ cause.message

/-- What went wrong, with all that is known of it. -/
def Error.report : Error → String
  | filter cause => cause.report
  | e => e.message

/-! ### Settings and schema -/

/-- The settings that were chosen: those of the file that is named, or else those of the current
directory, in the environment that is named. -/
def settingsFor (w : World) (choice : SettingsChoice) : Except Error Settings := do
  let settings ← match choice.file with
    | some path =>
      if w.files.isFile path then (Settings.load w.environment w.files path).mapError .load
      else .error (.missingSettings path)
    | none => (Settings.discover w.environment w.files "").mapError .load
  return match choice.environment with
    | some name => settings.inEnvironment name
    | none => settings

/-- The path of the schema: the one that is given, or else that of the settings, which is taken from
the directory of the settings file. -/
def schemaPath (given : Option String) (choice : SettingsChoice) (s : Settings) : String :=
  match given with
  | some path => path
  | none => Files.Path.join ((choice.file.map Files.Path.parent).getD "") s.schema.path

/-- The document of the schema at a path. -/
def loadSchema (w : World) (path : String) (s : Settings) : Except Error Schema.Document :=
  ((Source.readSource w.files path s.schema.extensions).map Schema.Document.parse).mapError .load

/-! ### Showing a schema -/

/-- A model in one line. -/
def describeModel (m : Schema.Model) : String :=
  let relations := (m.fields.filter Schema.Field.isRelation).length
  m.name ++ " (" ++ toString m.fields.length ++ " fields" ++
    (if relations = 0 then "" else ", " ++ toString relations ++ " relations") ++ ")" ++
    (match m.mapName with
      | some table => " → " ++ table
      | none => "")

/-- An enum in one line. -/
def describeEnum (e : Schema.Enum) : String := e.name ++ ": " ++ ", ".intercalate e.values

/-- A section with an item for each element, left out if there is none. -/
def listing {α : Type} (title : String) (describe : α → String) (elements : List α) : String :=
  if elements.isEmpty then ""
  else heading title ++ String.join (elements.map fun a => item (describe a)) ++ "\n"

/-- The document as JSON, with its sizes. -/
def schemaReport (path : String) (d : Schema.Document) : Json :=
  .object [("source", .string path), ("modelCount", .int d.models.length),
    ("enumCount", .int d.enums.length), ("fieldCount", .int d.fieldCount),
    ("relationCount", .int d.relationCount), ("document", d.toJson)]

/-- The document for people to read. -/
def showSchema (path : String) (d : Schema.Document) : Output :=
  let head := header "Schema" ++ entry "Source" path ++ "\n"
  if d.isEmpty then ⟨head, warning "No models or enums found"⟩
  else
    ⟨head ++ listing "Models" describeModel d.models ++ listing "Enums" describeEnum d.enums ++
      heading "Summary" ++ entry "Models" (toString d.models.length) ++
      entry "Enums" (toString d.enums.length) ++ entry "Total Fields" (toString d.fieldCount) ++
      entry "Relations" (toString d.relationCount) ++ "\n" ++ success "Schema parsed", ""⟩

/-- Shows a schema. -/
def runSchema (w : World) (o : SchemaOptions) : Except Error Output := do
  let settings ← settingsFor w o.settings
  let path := schemaPath o.schema o.settings settings
  let d ← loadSchema w path settings
  return if o.asJson then ⟨(schemaReport path d).pretty ++ "\n", ""⟩ else showSchema path d

/-! ### Compiling a filter -/

/-- The classification that a model of the schema gives, if one is named. -/
def modelFields (w : World) (o : FilterOptions) (s : Settings) :
    Except Error Filter.Classification :=
  match o.model with
  | none => .ok {}
  | some name => do
    let path := schemaPath o.schema o.settings s
    let d ← loadSchema w path s
    match d.model? name with
    | some m => .ok (.ofModel m)
    | none => .error (.unknownModel name path (d.models.map Schema.Model.name))

/-- The compiler that settings and options choose. -/
def compilerFor (w : World) (o : FilterOptions) (s : Settings) : Except Error Filter.Compiler := do
  let c := s.compiler
  let provider ← match o.provider with
    | none => .ok c.provider
    | some name => match Provider.ofName? name with
      | some p => .ok p
      | none => .error (.filter (.unknownProvider name))
  let fields ← modelFields w o s
  return ⟨⟨c.classification.merge fields, provider⟩, c.strict || o.strict, c.ignored⟩

/-- The parameters in a file. -/
def readParameters (w : World) (path : String) : Except Error Filter.Params :=
  match w.files.readText path with
  | .ok text => (Filter.Params.ofJsonText text).mapError .filter
  | .error cause => .error (.unreadableParameters path cause)

/-- The parameters of all files, laid over one another in order, and over them those of the query
string. -/
def collectParameters (w : World) (o : FilterOptions) : Except Error Filter.Params := do
  if o.parameters.isEmpty && o.query.isNone then throw .nothingToCompile
  let documents ← o.parameters.mapM (readParameters w)
  let layers := documents ++ (o.query.map Filter.Params.ofQueryString).toList
  return Filter.Params.ofLayers layers

/-- Compiles a filter. -/
def runFilter (w : World) (o : FilterOptions) : Except Error Output := do
  let settings ← settingsFor w o.settings
  let c ← compilerFor w o settings
  let params ← collectParameters w o
  let tree ← (c.compileStrictly params).mapError .filter
  return ⟨tree.toJson.pretty ++ "\n", ""⟩

/-! ### Showing the version -/

/-- The version of the program and its parts. -/
def versionNumber : String := "0.2.0"

/-- Shows the version, and what the program knows. -/
def showVersion : Output :=
  ⟨header "Quarry" ++ entry "Version" versionNumber ++ entry "Binary" "quarry-cli" ++
    entry "Build" "debug" ++
    entry "Providers" (", ".intercalate (Provider.all.map Provider.name)) ++ "\n" ++
    heading "Components" ++ entry "quarry-schema" versionNumber ++
    entry "quarry-query" versionNumber ++ "\n" ++
    heading "Filter Operators" ++
    dim ("  " ++ " ".intercalate (Filter.Operator.all.map Filter.Operator.name)) ++ "\n", ""⟩

/-! ### Commands -/

/-- The choice of settings; one command uses none. -/
def Invocation.settings? : Invocation → Option SettingsChoice
  | schema o => some o.settings
  | filter o => some o.settings
  | version => none

/-- The environment variables that the settings of an invocation refer to. -/
def Invocation.references (files : Node) (i : Invocation) : List String :=
  match i.settings? with
  | none => []
  | some choice =>
    match files.readText (choice.file.getD Settings.fileName) with
    | .ok text => Variables.references text
    | .error _ => []

/-- What a command writes, or why it fails. -/
def Invocation.run (w : World) : Invocation → Except Error Output
  | .schema o => runSchema w o
  | .filter o => runFilter w o
  | .version => .ok showVersion

end Sieve.Command
