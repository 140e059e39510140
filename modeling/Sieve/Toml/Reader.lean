import Sieve.Toml.Quoted
import Sieve.Toml.Scalar
import Sieve.Toml.Table

/-!
# Reading TOML

A text is cut into statements, which build the document. Values nest through arrays and tables in
braces; how deep they may go bounds the recursion. A list of items is read as long as each item
shortens the text, which it always does.

## Main definitions

* `key?` — a dotted key
* `value?` — a value, with a bound on its nesting
* `statements?` — the statements of a text
* `Toml.read?` — the root table of a text
-/

namespace Sieve.Toml

open Sieve.Text

/-- How many arrays and tables in braces may be open at once. -/
def maxNesting : Nat := 79

/-- How many parts a dotted key may have. -/
def maxKeyParts : Nat := 79

/-! ### Keys -/

/-- A character of a bare key. -/
def isBareKeyChar (c : Char) : Bool := isAsciiLetter c || isAsciiDigit c || c == '_' || c == '-'

/-- One part of a key: bare, or a string of one line. -/
def keyPart? (cs : List Char) : Option (String × List Char) :=
  quotedLine? cs <|>
    match cs.span isBareKeyChar with
    | ([], _) => none
    | (name, rest) => some (String.ofList name, rest)

/-- The parts of a dotted key, with spaces around each. -/
def keyParts? (cs : List Char) : Option (List String × List Char) :=
  match keyPart? (dropSpaces cs) with
  | none => none
  | some (part, rest) =>
    match dropSpaces rest with
    | '.' :: more =>
      if more.length < cs.length then (keyParts? more).map fun r => (part :: r.1, r.2) else none
    | more => some ([part], more)
termination_by cs.length

/-- A dotted key and the spaces after it. -/
def key? (cs : List Char) : Option (List String × List Char) :=
  (keyParts? cs).filter fun r => r.1.length ≤ maxKeyParts

/-! ### Values -/

/-- The items of an array after its bracket or after a comma. -/
def items? (item? : List Char → Option (Value × List Char)) (cs : List Char) :
    Option (List Value × List Char) :=
  match skipGap? false cs with
  | none => none
  | some (']' :: rest) => some ([], rest)
  | some start =>
    match item? start with
    | none => none
    | some (v, rest) =>
      match skipGap? false rest with
      | some (']' :: rest) => some ([v], rest)
      | some (',' :: rest) =>
        if rest.length < cs.length then (items? item? rest).map fun r => (v :: r.1, r.2) else none
      | _ => none
termination_by cs.length

/-- A key, its equals sign and its value, with spaces around each. -/
def pair? (item? : List Char → Option (Value × List Char)) (cs : List Char) :
    Option ((List String × Value) × List Char) :=
  match key? cs with
  | some (key, '=' :: rest) => (item? (dropSpaces rest)).map fun r => ((key, r.1), r.2)
  | _ => none

/-- The pairs of a table in braces, of which there is at least one. -/
def pairs? (item? : List Char → Option (Value × List Char)) (cs : List Char) :
    Option (List (List String × Value) × List Char) :=
  match pair? item? cs with
  | none => none
  | some (pair, rest) =>
    match dropSpaces rest with
    | '\x7d' :: rest => some ([pair], rest)
    | ',' :: rest =>
      if rest.length < cs.length then (pairs? item? rest).map fun r => (pair :: r.1, r.2) else none
    | _ => none
termination_by cs.length

/-- A table in braces, after the opening one. -/
def braces? (item? : List Char → Option (Value × List Char)) (cs : List Char) :
    Option (Value × List Char) :=
  match dropSpaces cs with
  | '\x7d' :: rest => some (.table .braces [], rest)
  | _ => do
    let (pairs, rest) ← pairs? item? cs
    let entries ← Table.ofPairs? pairs
    some (.table .braces entries, rest)

/-- A value that opens at most `depth` arrays and tables inside each other. -/
def value? (depth : Nat) (cs : List Char) : Option (Value × List Char) :=
  match cs, depth with
  | '[' :: rest, depth + 1 => (items? (value? depth) rest).map fun r => (.array r.1, r.2)
  | '\x7b' :: rest, depth + 1 => braces? (value? depth) rest
  | cs, _ =>
    (quoted? cs).map (fun r => (.string r.1, r.2)) <|>
      (scalar? (word cs).1).map fun v => (v, (word cs).2)

/-! ### Statements -/

/-- A key as a header's path, split before its last part. -/
def headerPath? (cs : List Char) : Option ((List String × String) × List Char) :=
  (key? cs).bind fun r => r.1.getLast?.map fun key => ((r.1.dropLast, key), r.2)

/-- A statement without the end of its line. -/
def statement? : List Char → Option (Statement × List Char)
  | '[' :: '[' :: cs =>
    match headerPath? cs with
    | some ((outer, key), ']' :: ']' :: rest) => some (.item outer key, rest)
    | _ => none
  | '[' :: cs =>
    match headerPath? cs with
    | some ((outer, key), ']' :: rest) => some (.table outer key, rest)
    | _ => none
  | cs => (pair? (value? maxNesting) cs).map fun r => (.assign r.1.1 r.1.2, r.2)

/-- The statements of a text, one a line; empty lines and lines with a comment alone are none. -/
def statements? : List Char → Option (List Statement)
  | [] => some []
  | c :: cs =>
    match lineEnd? (c :: cs) with
    | some rest => if rest.length ≤ cs.length then statements? rest else none
    | none =>
      match statement? (dropSpaces (c :: cs)) with
      | none => none
      | some (s, rest) =>
        match lineEnd? rest with
        | none => none
        | some rest =>
          if rest.length ≤ cs.length then (statements? rest).map (s :: ·) else none
termination_by cs => cs.length
decreasing_by all_goals simp only [List.length_cons]; omega

/-- Drops a byte order mark. -/
def dropByteOrderMark : List Char → List Char
  | '\uFEFF' :: cs => cs
  | cs => cs

/-- The root table of a text; `none` if it is not a TOML document. -/
def read? (text : String) : Option Table := do
  let statements ← statements? (dropByteOrderMark text.toList)
  let document ← statements.foldlM Document.apply {}
  some document.root

end Sieve.Toml
