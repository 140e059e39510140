import Sieve.Files.Place
import Sieve.Filter.Compiler
import Sieve.Settings.Reader

/-!
# Using settings

Settings are read from a file, or found in a directory, and give a compiler of filters.
-/

namespace Sieve

open Files (Node Path.join)

namespace Settings

/-- The name of a settings file. -/
def fileName : String := "quarry.toml"

/-- The settings in a file. -/
def load (vars : Variables) (root : Node) (path : String) : Except LoadError Settings :=
  match root.readText path with
  | .ok text => ofText vars text
  | .error _ => .error (.unreadable path)

/-- The settings of a directory: those in its settings file, or the defaults if it has none. -/
def discover (vars : Variables) (root : Node) (directory : String) : Except LoadError Settings :=
  let path := Path.join directory fileName
  if root.isFile path then load vars root path else .ok {}

/-- The compiler that the settings choose. -/
def compiler (s : Settings) : Filter.Compiler :=
  ⟨⟨s.filter.fields, s.provider⟩, s.filter.strict, s.filter.ignored⟩

end Settings

end Sieve
