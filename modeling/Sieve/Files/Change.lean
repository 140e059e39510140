import Sieve.Files.Place

/-!
# Changing a tree

Each change gives the changed tree. What cannot be made or removed is left as it is.

## Main definitions

* `Node.makeDirectories`, `Node.write` — making directories and files
* `Node.remove` — removing either
-/

namespace Sieve.Files.Node

/-- Goes along pieces of a path as far as that is possible; missing directories are made. -/
def makeAlong : Place → List String → Place
  | p, [] => p
  | p, piece :: rest =>
    match p.enter (.ok (.directory [])) piece with
    | .ok next => makeAlong next rest
    | .error _ => p

/-- Makes the directories on a path that are missing. The last name is made only if it ends the
path. -/
def makeDirectories (root : Node) (path : String) : Node :=
  match Place.pieces path with
  | .error _ => root
  | .ok _ =>
    let made := if Path.endsInName path then path else Path.parent path
    (makeAlong (Place.start root path) (Path.parts made)).root

/-- Writes a file, and makes the directories that it needs. A directory is not written over. -/
def write (root : Node) (path : String) (text : Option String) : Node :=
  let root := root.makeDirectories (Path.parent path)
  match Place.follow (.ok (.file text)) root path with
  | .ok ⟨.file _, above⟩ => Place.root ⟨.file text, above⟩
  | _ => root

/-- The tree without what stands at a place. -/
def without (p : Place) : Node :=
  match p.above with
  | [] => p.root
  | (name, entries) :: above => Place.root ⟨.directory (entries.erase name), above⟩

/-- Removes a file, or a directory with all that is in it. A directory is emptied first, and stays
empty if its path does not end in a name, or went through what it held. -/
def remove (root : Node) (path : String) : Node :=
  match Place.follow (.error .missing) root path with
  | .error _ => root
  | .ok ⟨.file text, above⟩ => without ⟨.file text, above⟩
  | .ok ⟨.directory _, above⟩ =>
    let emptied := Place.root ⟨.directory [], above⟩
    if Path.endsInName path then
      match Place.follow (.error .missing) emptied path with
      | .ok p => without p
      | .error _ => emptied
    else emptied

end Sieve.Files.Node
