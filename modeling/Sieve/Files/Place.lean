import Sieve.Files.Path
import Sieve.Files.Tree

/-!
# Places in a tree

A path is followed piece by piece from the root of a tree. It goes through directories only, and
`..` goes up from the directory that is reached. The tree stands in an outermost directory, which
holds nothing else: going up from there stays there, and no name leads back.

A place remembers the directories that lead to it, so that a change made there gives a changed tree.

## Main definitions

* `Place` — a node with the directories that lead to it
* `Place.enter`, `Place.follow` — the places that a piece of a path and a whole path lead to
* `Place.root` — the tree that a place is in
* `Node.locate`, `Node.readText` — what a path leads to, and the text of it
-/

namespace Sieve.Files

/-- A node, and the entries of the directories that lead to it, the nearest first, each with the
name that was taken in it. -/
structure Place where
  node : Node
  above : List (String × Entries Node)

namespace Place

/-- The outermost directory. The tree stands there without a name. -/
def outermost (root : Node) : Place := ⟨.directory [("", root)], []⟩

/-- The place of the root of a tree. -/
def ofRoot (root : Node) : Place := ⟨root, [("", [("", root)])]⟩

/-- The place below which a path leads on. -/
def start (root : Node) (path : String) : Place :=
  if Path.isAbsolute path then outermost root else ofRoot root

/-- The directory that holds a place, with what now stands at that place. -/
def up (p : Place) : Place :=
  match p.above with
  | [] => p
  | (name, entries) :: above => ⟨.directory (entries.insert name p.node), above⟩

/-- The place that a piece of a path leads to. A name that is not there leads to what is
`absent`. -/
def enter (absent : Except ReadError Node) (p : Place) (piece : String) : Except ReadError Place :=
  match p.node with
  | .file _ => .error .notADirectory
  | .directory entries =>
    if Path.isStill piece then .ok p
    else if Path.isUp piece then .ok p.up
    else if piece.utf8ByteSize > Path.longestName then .error .nameTooLong
    else
      (((Entries.get? entries piece).map .ok).getD absent).map fun node =>
        ⟨node, (piece, entries) :: p.above⟩

/-- The pieces that a path is followed by. The empty path leads nowhere. -/
def pieces (path : String) : Except ReadError (List String) :=
  if path.toList.contains '\x00' then .error .zeroInName
  else if !Path.fits path then .error .nameTooLong
  else if path.isEmpty then .error .missing
  else .ok (Path.parts path)

/-- The place in a tree that a path leads to. A name that is not there leads to what is `absent`. -/
def follow (absent : Except ReadError Node) (root : Node) (path : String) :
    Except ReadError Place := do
  (← pieces path).foldlM (enter absent) (start root path)

/-- The tree that a place is in, with what now stands at that place. -/
def root (p : Place) : Node :=
  match p.above.foldl (fun node d => .directory (Entries.insert d.2 d.1 node)) p.node with
  | .directory entries => (Entries.get? entries "").getD (.directory [])
  | node => node

end Place

namespace Node

/-- What a path leads to. -/
def locate (root : Node) (path : String) : Except ReadError Node :=
  (Place.follow (.error .missing) root path).map Place.node

/-- The path leads to a file. -/
def isFile (root : Node) (path : String) : Bool :=
  match root.locate path with
  | .ok (.file _) => true
  | _ => false

/-- The text of the file that a path leads to. -/
def readText (root : Node) (path : String) : Except ReadError String := do
  (← root.locate path).text?

end Node

end Sieve.Files
