import Sieve.Entries

/-!
# Command-line arguments

A command has options and takes some words. An option is written long (`--name`, `--name=value`) or
short (`-n`, `-nvalue`, `-n=value`), and short ones without value may be put together. Two dashes
alone make words of all that follows.

An option that takes a value may stand before it, and then *waits*. Its value is whatever comes
next, unless that looks like an option. What waits, or has just got its value, is settled when the
next option or word is taken up: only then is it noticed that the value is missing, or that the
option was given before. An argument nobody knows is refused without that.

## Main definitions

* `UsageError` — why arguments are refused, or what is shown instead
* `OptionSpec`, `Spec` — the options and words of a command
* `Argument` — the form of one argument
* `Reading`, `Spec.read` — the arguments read so far, and reading all of them
-/

namespace Sieve.Command

/-- Why arguments are refused, or what is shown instead of running a command. -/
inductive UsageError where
  | nothingGiven
  | missingCommand
  | unknownCommand
  | unknownArgument
  | repeatedArgument
  | missingValue
  | needlessValue
  | help
  | version
deriving Repr, DecidableEq, Inhabited

/-- What an option takes and does. -/
inductive OptionKind where
  /-- No value; it is given or not. -/
  | flag
  /-- Any value. -/
  | text
  /-- A value that is not empty. -/
  | path
  /-- A value that is not empty, any number of times. -/
  | paths
  /-- No value; help is shown. -/
  | help
  /-- No value; the version is shown. -/
  | version
deriving Repr, DecidableEq, Inhabited

/-- The option takes a value. -/
def OptionKind.takesValue : OptionKind → Bool
  | text | path | paths => true
  | flag | help | version => false

/-- An option of a command. -/
structure OptionSpec where
  long : String
  short : Option Char
  kind : OptionKind
deriving Repr, DecidableEq, Inhabited

/-- The options of a command, and how many words it takes. -/
structure Spec where
  options : List OptionSpec
  words : Nat
deriving Repr, DecidableEq, Inhabited

/-- The form of an argument. -/
inductive Argument where
  /-- Two dashes alone. -/
  | separator
  /-- A long option, perhaps with its value. -/
  | long (name : String) (value : Option String)
  /-- Short options, the last one perhaps with its value. -/
  | short (letters : List Char)
  /-- Anything else. -/
  | word (text : String)
deriving Repr, DecidableEq, Inhabited

/-- The form of an argument. A dash alone is a word. -/
def Argument.ofText (s : String) : Argument :=
  match s.toList with
  | ['-', '-'] => .separator
  | '-' :: '-' :: cs =>
    let value := match cs.dropWhile (· ≠ '=') with
      | _ :: value => some (String.ofList value)
      | [] => none
    .long (String.ofList (cs.takeWhile (· ≠ '='))) value
  | '-' :: c :: cs => .short (c :: cs)
  | _ => .word s

/-- The arguments read so far: options with their values, an option that is not settled yet, and
words. -/
structure Reading where
  given : List (String × String) := []
  waiting : Option (OptionSpec × Option String) := none
  words : List String := []
deriving Repr, DecidableEq, Inhabited

namespace Reading

/-- The values of an option in order. A flag that is given has one value, which is empty. -/
def values (r : Reading) (name : String) : List String :=
  (r.given.filter fun g => g.1 == name).map Prod.snd

/-- The value of an option that may be given once. -/
def value? (r : Reading) (name : String) : Option String := (r.values name).head?

/-- The option is given. -/
def has (r : Reading) (name : String) : Bool := (r.value? name).isSome

/-- Takes note of an option with its value. -/
def accept (r : Reading) (o : OptionSpec) (value : String) : Except UsageError Reading :=
  if o.kind ≠ .paths ∧ r.has o.long then .error .repeatedArgument
  else if (o.kind = .path ∨ o.kind = .paths) ∧ value.isEmpty then .error .missingValue
  else .ok { r with given := r.given ++ [(o.long, value)] }

/-- Settles the option that waits. -/
def settle (r : Reading) : Except UsageError Reading :=
  match r.waiting with
  | none => .ok r
  | some (_, none) => .error .missingValue
  | some (o, some value) => { r with waiting := none }.accept o value

/-- Takes up an option without value. -/
def raise (r : Reading) (o : OptionSpec) : Except UsageError Reading := do
  let r ← r.settle
  match o.kind with
  | .help => .error .help
  | .version => .error .version
  | _ => r.accept o ""

/-- Takes up an option that takes a value; without one it waits. -/
def takeUp (r : Reading) (o : OptionSpec) (value : Option String) : Except UsageError Reading := do
  let r ← r.settle
  match value with
  | some v => r.accept o v
  | none => .ok { r with waiting := some (o, none) }

end Reading

namespace Spec

/-- Reads a long option. -/
def readLong (s : Spec) (r : Reading) (name : String) (value : Option String) :
    Except UsageError Reading :=
  match s.options.find? fun o => o.long == name with
  | none => .error .unknownArgument
  | some o =>
    if o.kind.takesValue then r.takeUp o value
    else if value.isSome then .error .needlessValue
    else r.raise o

/-- The value that is written right behind a short option. -/
def attached? : List Char → Option String
  | [] => none
  | '=' :: cs => some (String.ofList cs)
  | cs => some (String.ofList cs)

/-- Reads short options that are put together. -/
def readShort (s : Spec) (r : Reading) : List Char → Except UsageError Reading
  | [] => .ok r
  | c :: cs =>
    match s.options.find? fun o => o.short == some c with
    | none => .error .unknownArgument
    | some o =>
      if o.kind.takesValue then r.takeUp o (attached? cs)
      else (r.raise o).bind fun r => s.readShort r cs

/-- Reads a word, if the command takes one more. -/
def readWord (s : Spec) (r : Reading) (w : String) : Except UsageError Reading :=
  if r.words.length < s.words then
    r.settle.map fun r => { r with words := r.words ++ [w] }
  else .error .unknownArgument

/-- Reads what looks like no option: the value of the option that waits for one, or a word. -/
def readPlain (s : Spec) (r : Reading) (w : String) : Except UsageError Reading :=
  match r.waiting with
  | some (o, none) => .ok { r with waiting := some (o, some w) }
  | _ => s.readWord r w

/-- Reads arguments one after another, starting from what is read already. -/
def readFrom (s : Spec) (r : Reading) : List String → Except UsageError Reading
  | [] => r.settle
  | a :: rest =>
    match Argument.ofText a with
    | .separator => (rest.foldlM s.readWord r).bind Reading.settle
    | .long name value => (s.readLong r name value).bind fun r => s.readFrom r rest
    | .short letters => (s.readShort r letters).bind fun r => s.readFrom r rest
    | .word w => (s.readPlain r w).bind fun r => s.readFrom r rest

/-- Reads the arguments of a command. -/
def read (s : Spec) (args : List String) : Except UsageError Reading := s.readFrom {} args

end Spec

end Sieve.Command
