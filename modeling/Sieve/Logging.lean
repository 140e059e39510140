import Sieve.Settings.Variables
import Sieve.Text.Basic

/-!
# Choosing what is logged

Three environment variables choose the level and the format of the log. A word that is not known
counts as not given; letters may be of either case.

## Main definitions

* `LogLevel`, `LogFormat` — levels and formats, with their names
* `Logging.isDebug`, `Logging.level`, `Logging.format` — what the environment chooses
-/

namespace Sieve

/-- How grave an event must be to be logged. -/
inductive LogLevel where
  | trace
  | debug
  | info
  | warn
  | error
deriving Repr, DecidableEq, Inhabited

namespace LogLevel

/-- Every level, the least grave one first. -/
def all : List LogLevel := [trace, debug, info, warn, error]

/-- The name of the level. -/
def name : LogLevel → String
  | trace => "trace"
  | debug => "debug"
  | info => "info"
  | warn => "warn"
  | error => "error"

/-- The level of a name; warnings have two. -/
def ofName? (s : String) : Option LogLevel :=
  let folded := Text.foldCase s
  if folded = "warning" then some warn else all.find? fun l => l.name == folded

end LogLevel

/-- How events are written. -/
inductive LogFormat where
  | json
  | pretty
  | compact
deriving Repr, DecidableEq, Inhabited

/-- The name of the format. -/
def LogFormat.name : LogFormat → String
  | json => "json"
  | pretty => "pretty"
  | compact => "compact"

namespace Logging

/-- The environment asks for debugging. -/
def isDebug (vars : Variables) : Bool :=
  (vars.value? "QUARRY_DEBUG").any fun v => ["true", "1", "yes"].contains (Text.foldCase v)

/-- The level that the environment chooses. -/
def level (vars : Variables) : LogLevel :=
  ((vars.value? "QUARRY_LOG_LEVEL").bind LogLevel.ofName?).getD
    (if isDebug vars then .debug else .warn)

/-- The format that the environment chooses. -/
def format (vars : Variables) : LogFormat :=
  match vars.value? "QUARRY_LOG_FORMAT" with
  | some v =>
    if Text.eqIgnoringCase v "pretty" then .pretty
    else if Text.eqIgnoringCase v "compact" then .compact
    else .json
  | none => .json

end Logging

end Sieve
