import Sieve.Files.Place
import Sieve.LoadError
import Sieve.Schema.Document

/-!
# Schema sources

The text of a schema is a file, or all the schema files below a directory. Those are put one after
another in the order of their paths, name by name, so that the text does not hang on the order in
which a directory lists its entries.

Every file is read by its whole path. One that stands so deep that its path is too long is found,
but cannot be read; and a directory that stands so deep cannot be told from a file.

## Main definitions

* `filesBelow` — the files below a directory, without those of migrations
* `schemaFiles` — those with a given extension, in order
* `collect`, `readSource` — the text of a directory, and of a file or a directory
-/

namespace Sieve.Source

open Sieve.Files

/-- The extensions of schema files, unless others are given. -/
def defaultExtensions : List String := ["prisma"]

/-- A directory of this name is left out, wherever it stands. -/
def skippedName : String := "migrations"

/-- A file below a directory: the names that lead to it, and its text, `none` if it cannot be
read. -/
abbrev Found := List String × Option String

mutual

/-- The files at an entry of a directory; the path is that of the entry. -/
def filesAt (path name : String) : Node → List Found
  | .file text => [([name], if Path.fits path then text else none)]
  | .directory entries =>
    if !Path.fits path then [([name], none)]
    else if name = skippedName then []
    else (filesBelow path entries).map fun f => (name :: f.1, f.2)

/-- The files below the directory at a path, with the given entries. -/
def filesBelow (path : String) : List (String × Node) → List Found
  | [] => []
  | (name, node) :: rest => filesAt (Path.join path name) name node ++ filesBelow path rest

end

/-- The name has one of the extensions, each of which may be given with points before it. -/
def hasExtension (extensions : List String) (name : String) : Bool :=
  match Path.extension? name with
  | none => false
  | some found =>
    extensions.any fun wanted => wanted.toList.dropWhile (· == '.') == found.toList

/-- The order of paths: by the first name that differs. -/
def pathLe : List String → List String → Bool
  | [], _ => true
  | _ :: _, [] => false
  | a :: as, b :: bs => if a = b then pathLe as bs else decide (a < b)

/-- The schema files below the directory at a path, in the order of their paths. -/
def schemaFiles (extensions : List String) (path : String) (entries : List (String × Node)) :
    List Found :=
  ((filesBelow path entries).filter fun f => f.1.getLast?.any (hasExtension extensions)).mergeSort
    fun f g => pathLe f.1 g.1

/-- The text of a file found below the directory at `path`. -/
def textOf (path : String) (f : Found) : Except LoadError String :=
  match f.2 with
  | some text => .ok text
  | none => .error (.unreadable (Path.join path ("/".intercalate f.1)))

/-- The text of the schema files below a directory. -/
def collect (root : Node) (path : String) (extensions : List String) : Except LoadError String :=
  match root.locate path with
  | .ok (.directory entries) =>
    ((schemaFiles extensions path entries).mapM (textOf path)).map "\n".intercalate
  | _ => .error (.notFound path)

/-- The text of a schema file, or of the schema files below a directory. -/
def readSource (root : Node) (path : String) (extensions : List String) :
    Except LoadError String :=
  match root.locate path with
  | .ok (.directory _) => collect root path extensions
  | .ok (.file (some text)) => .ok text
  | .ok (.file none) => .error (.unreadable path)
  | .error _ => .error (.notFound path)

/-- The document of a schema file. -/
def parseFile (root : Node) (path : String) : Except LoadError Schema.Document :=
  match root.locate path with
  | .ok node =>
    match node.text? with
    | .ok text => .ok (.parse text)
    | .error _ => .error (.unreadable path)
  | .error _ => .error (.notFound path)

end Sieve.Source
