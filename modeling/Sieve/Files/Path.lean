import Sieve.Text.Split

/-!
# Paths

A path is text: names with slashes between them. Nothing is normalised, since paths are shown to
users as they were written.

## Main definitions

* `Path.parts` — the pieces between slashes
* `Path.longest`, `Path.fits`, `Path.longestName` — how long paths and names may be
* `Path.join`, `Path.parent` — going down and up, as text
* `Path.extension?` — the extension of a file name
-/

namespace Sieve.Files.Path

/-- The pieces between slashes. A slash at either end gives an empty piece. -/
def parts (path : String) : List String :=
  (Text.splitAt '/' path.toList).map String.ofList

/-- The longest path that can be followed, in bytes. -/
def longest : Nat := 4095

/-- The path is short enough to be followed. -/
def fits (path : String) : Bool := decide (path.utf8ByteSize ≤ longest)

/-- The longest name of a file or a directory, in bytes. -/
def longestName : Nat := 255

/-- The piece stays where it is. -/
def isStill (piece : String) : Bool := piece == "" || piece == "."

/-- The piece goes up. -/
def isUp (piece : String) : Bool := piece == ".."

/-- The path ends in a name, possibly with slashes behind it. -/
def endsInName (path : String) : Bool :=
  ((parts path).filter (· ≠ "")).getLast?.any fun piece => !isStill piece && !isUp piece

/-- The path begins at the root of all files. -/
def isAbsolute (path : String) : Bool := path.toList.head? == some '/'

/-- A path taken from a directory: put behind it, with one slash at least between the two. An
absolute path stays as it is, and so does one taken from nowhere. -/
def join (base path : String) : String :=
  if base.isEmpty || isAbsolute path then path
  else if base.toList.getLast? == some '/' then base ++ path
  else base ++ "/" ++ path

/-- Drops slashes, and pieces that stay where they are, from the end of a reversed path. -/
def dropStill : List Char → List Char
  | '/' :: cs => dropStill cs
  | '.' :: '/' :: cs => dropStill cs
  | cs => cs

/-- The directory that a relative path names something in; empty if that is the current one. -/
def parent (path : String) : String :=
  let before := (dropStill path.toList.reverse).dropWhile (· ≠ '/')
  String.ofList (dropStill before).reverse

/-- What follows the last point of a name, if something stands before that point. -/
def extension? (name : String) : Option String :=
  let reversed := name.toList.reverse
  match reversed.dropWhile (· ≠ '.') with
  | _ :: _ :: _ =>
    if name = ".." then none
    else some (String.ofList (reversed.takeWhile (· ≠ '.')).reverse)
  | _ => none

end Sieve.Files.Path
