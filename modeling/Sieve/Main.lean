import Sieve.Command.Run
import Sieve.Text.Utf8

/-!
# The command line

Reads the arguments, the environment and the files below the current directory, runs the command,
and writes what it gives.
-/

namespace Sieve

open Files (Node)

/-- What stands at an entry of a directory. A directory behind a link is left out, so that the walk
ends. -/
partial def snapshot (e : IO.FS.DirEntry) : IO (List (String × Node)) := do
  match (← e.path.symlinkMetadata).type with
  | .dir =>
    let entries ← (← e.path.readDir).toList.mapM snapshot
    return [(e.fileName, .directory entries.flatten)]
  | _ =>
    if ← e.path.isDir then return []
    let bytes ← IO.FS.readBinFile e.path
    return [(e.fileName, .file (Text.Utf8.decode? bytes.toList))]

/-- The files below the current directory. -/
def currentFiles : IO Node := do
  let entries ← (← (← IO.currentDir).readDir).toList.mapM snapshot
  return .directory entries.flatten

/-- The environment variables of the given names that are set. -/
def variablesNamed (names : List String) : IO Variables := do
  let values ← names.mapM fun name => do return (← IO.getEnv name).map fun v => (name, v)
  return values.filterMap id

/-- How the program is called. -/
def usage : String := "Usage: quarry [-v] <schema|filter|version> [OPTIONS]"

/-- Runs the command that the arguments ask for. -/
def runCommand (args : List String) : IO UInt32 := do
  let vars ← variablesNamed [Command.environmentVariable]
  match Command.Invocation.ofArguments vars args with
  | .error .help => IO.println usage; return 0
  | .error .version => IO.println ("quarry " ++ Command.versionNumber); return 0
  | .error _ => IO.eprintln usage; return 2
  | .ok invocation =>
    let files ← currentFiles
    let vars ← variablesNamed (invocation.references files)
    match invocation.run ⟨files, vars⟩ with
    | .ok output => IO.print output.out; IO.eprint output.err; return 0
    | .error e => IO.eprint (Command.failure e.report); return 1

end Sieve

/-- Runs the command that the arguments ask for. -/
def main (args : List String) : IO UInt32 := Sieve.runCommand args
