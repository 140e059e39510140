import Sieve.Filter.Operator

/-!
# Filter keys

A flat key spells a path of fields with an optional operator at its end. Segments are separated by
a double underscore or wrapped in brackets, and both ways may be mixed: `author__name__contains`
and `author[name][contains]` are the same key.

A key is cut into pieces from the left. At each place a separator is tried first, then a bracket
group, and what is neither runs on as plain text up to the next place where one of the two begins.
Every key can be cut, and the pieces spell it out again.

## Main definitions

* `Piece`, `pieces`, `spell` — the pieces of a key, and the text they were cut from
* `segments` — the names in the pieces, empty ones left out
* `splitOperator` — takes an operator off the end of a path
* `Key`, `Key.parse`, `Key.text` — a path with its operator, read and written
-/

namespace Sieve.Filter

/-- A stretch of a key. -/
inductive Piece where
  /-- A double underscore. -/
  | separator
  /-- A bracket group, without its brackets. -/
  | bracket (content : List Char)
  /-- Text between separators and bracket groups. -/
  | plain (text : List Char)
deriving Repr, DecidableEq

/-- Puts a character in front of pieces that begin with plain text, or else on its own. -/
def Piece.push (c : Char) : List Piece → List Piece
  | .plain text :: ps => .plain (c :: text) :: ps
  | ps => .plain [c] :: ps

/-- The pieces of a key. -/
def pieces : List Char → List Piece
  | [] => []
  | c :: cs =>
    if c = '_' ∧ cs.head? = some '_' then .separator :: pieces (cs.drop 1)
    else if c = '[' ∧ ']' ∈ cs then
      .bracket (cs.takeWhile (· ≠ ']')) :: pieces ((cs.dropWhile (· ≠ ']')).drop 1)
    else Piece.push c (pieces cs)
termination_by cs => cs.length
decreasing_by
  · simp only [List.length_drop, List.length_cons]
    omega
  · have := (List.dropWhile_sublist (l := cs) (· ≠ ']')).length_le
    simp only [List.length_drop, List.length_cons]
    omega
  · simp

/-- The text that a piece was cut from. -/
def Piece.spell : Piece → List Char
  | separator => ['_', '_']
  | bracket content => '[' :: content ++ [']']
  | plain text => text

/-- The text that the pieces were cut from. -/
def spell (ps : List Piece) : List Char := ps.flatMap Piece.spell

/-- The name that a piece carries; separators and empty bracket groups carry none. -/
def Piece.name? : Piece → Option (List Char)
  | separator => none
  | bracket [] => none
  | bracket content => some content
  | plain text => some text

/-- The names in a key, in order. -/
def segments (key : String) : List String :=
  ((pieces key.toList).filterMap Piece.name?).map String.ofList

/-- The key uses a separator or an opening bracket. -/
def needsCutting : List Char → Bool
  | [] => false
  | c :: cs => c == '[' || (c == '_' && cs.head? == some '_') || needsCutting cs

/-- Takes an operator off the end of a path. An operator that nothing precedes is dropped: it
leaves the empty path, and no operator. -/
def splitOperator (path : List String) : List String × Option Operator :=
  match path.getLast?.bind Operator.ofName? with
  | none => (path, none)
  | some op => if path.dropLast = [] then ([], none) else (path.dropLast, some op)

/-- A path of fields, outermost first, and the operator at its end. -/
structure Key where
  fields : List String
  operator : Option Operator
deriving Repr, DecidableEq

namespace Key

/-- Reads a key. -/
def parse (key : String) : Key :=
  let (fields, operator) := splitOperator (segments key)
  ⟨fields, operator⟩

/-- The outermost field. -/
def root? (k : Key) : Option String := k.fields.head?

/-- The segments that spell the key: its fields, then its operator. -/
def path (k : Key) : List String := k.fields ++ (k.operator.map Operator.name).toList

/-- Writes the key with separators. -/
def text (k : Key) : String := "__".intercalate k.path

end Key

end Sieve.Filter
