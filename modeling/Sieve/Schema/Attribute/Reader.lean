import Sieve.Schema.Attribute.Token

/-!
# Reading attributes

The name of an attribute is read first. The tokens behind it then drive a machine whose state is
the stack of brackets that are still open, each with what it has gathered so far.

Inside a bracket items are separated by commas. One comma may stand before the closing bracket, even
if no item does. Items of an argument list may carry a label; items of a plain list may not. The
words `true` and `false` are truth values, except where they are labels.

## Main definitions

* `Attribute.Frame`, `Attribute.Place`, `Attribute.State` — an open bracket, a place in it, and the
  whole stack
* `Attribute.State.step` — what a token does
* `Attribute.parse?` — the attribute that a word of a schema spells
-/

namespace Sieve.Schema.Attribute

open Sieve.Text

/-- An open bracket with what it has gathered. -/
inductive Frame where
  /-- The attribute's own arguments. -/
  | arguments (done : List Arg)
  /-- The arguments of a call. -/
  | call (name : String) (done : List Value)
  /-- A list. -/
  | list (done : List Value)

/-- A place inside the innermost bracket. -/
inductive Place where
  /-- Right after the opening bracket. -/
  | first
  /-- After a comma that follows an item. -/
  | next
  /-- After a comma that follows nothing: only the closing bracket may come. -/
  | last
  /-- After an item. -/
  | after
  /-- After a label and its colon. -/
  | labelled (label : String)
  /-- After a word, which may be an item, a call or a label; with the label in front of it. -/
  | word (label : Option String) (name : String)

/-- The state of reading: inside brackets, or behind the attribute's own closing bracket. -/
inductive State where
  /-- Inside `frame`; the frames around it are given with the labels of the items begun there. -/
  | inside (outer : List (Frame × Option String)) (frame : Frame) (place : Place)
  | finished (args : List Arg)

/-- Adds an item to what a bracket has gathered. Only an attribute's own arguments keep labels. -/
def Frame.add (frame : Frame) (label : Option String) (v : Value) : Frame :=
  match frame with
  | arguments done => arguments (done ++ [⟨label, v⟩])
  | call name done => call name (done ++ [v])
  | list done => list (done ++ [v])

/-- Items of the bracket may carry labels. -/
def Frame.allowsLabels : Frame → Bool
  | list _ => false
  | _ => true

/-- The token closes the bracket. -/
def Frame.closedBy (frame : Frame) (t : Token) : Bool :=
  match frame, t with
  | list _, .closeBracket => true
  | arguments _, .closeParen | call _ _, .closeParen => true
  | _, _ => false

/-- The state after the innermost bracket is closed: what it gathered is an item of the bracket
around it. -/
def closeFrame : List (Frame × Option String) → Frame → Option State
  | [], .arguments done => some (.finished done)
  | (f, label) :: outer, .call name done =>
    some (.inside outer (f.add label (.call name done)) .after)
  | (f, label) :: outer, .list done => some (.inside outer (f.add label (.list done)) .after)
  | _, _ => none

/-- The value of a word that stands for itself. -/
def wordValue (name : String) : Value :=
  if name = "true" then .bool true else if name = "false" then .bool false else .word name

/-- The word is a truth value. -/
def isTruthWord (name : String) : Bool := name == "true" || name == "false"

/-- The state after the first token of an item. -/
def beginItem (outer : List (Frame × Option String)) (frame : Frame) (label : Option String) :
    Token → Option State
  | .literal v => some (.inside outer (frame.add label v) .after)
  | .word name => some (.inside outer frame (.word label name))
  | .openBracket => some (.inside ((frame, label) :: outer) (.list []) .first)
  | _ => none

/-- The state after a token that follows an item. -/
def afterItem (outer : List (Frame × Option String)) (frame : Frame) (t : Token) : Option State :=
  if frame.closedBy t then closeFrame outer frame
  else if t == .comma then some (.inside outer frame .next)
  else none

/-- The state after a token that follows a word. -/
def afterWord (outer : List (Frame × Option String)) (frame : Frame) (label : Option String)
    (name : String) : Token → Option State
  | .openParen =>
    if isTruthWord name then none
    else some (.inside ((frame, label) :: outer) (.call name []) .first)
  | .colon =>
    if label.isNone && frame.allowsLabels then some (.inside outer frame (.labelled name)) else none
  | t => afterItem outer (frame.add label (wordValue name)) t

/-- The state after one more token. -/
def State.step : State → Token → Option State
  | .finished _, _ => none
  | .inside outer frame place, t =>
    match place with
    | .first =>
      if frame.closedBy t then closeFrame outer frame
      else if t == .comma then some (.inside outer frame .last)
      else beginItem outer frame none t
    | .next => if frame.closedBy t then closeFrame outer frame else beginItem outer frame none t
    | .last => if frame.closedBy t then closeFrame outer frame else none
    | .after => afterItem outer frame t
    | .labelled label => beginItem outer frame (some label) t
    | .word label name => afterWord outer frame label name t

/-- The arguments that a finished run has read. -/
def State.result? : State → Option (List Arg)
  | .finished args => some args
  | _ => none

/-- The arguments that the tokens behind a name spell: none at all, or one bracketed list. -/
def arguments? : List Token → Option (List Arg)
  | [] => some []
  | .openParen :: ts =>
    (ts.foldlM State.step (.inside [] (.arguments []) .first)).bind State.result?
  | _ => none

/-- A name, which may consist of identifiers joined by dots, and what follows it. -/
def dottedName? (cs : List Char) : Option (List Char × List Char) :=
  match cs with
  | [] => none
  | c :: rest =>
    if isIdentStart c then some (c :: (more rest).1, (more rest).2) else none
where
  /-- The rest of a name, and what follows it. -/
  more : List Char → List Char × List Char
    | [] => ([], [])
    | [c] => if isIdentRest c then ([c], []) else ([], [c])
    | c :: d :: cs =>
      if isIdentRest c || (c == '.' && isIdentStart d) then
        (c :: (more (d :: cs)).1, (more (d :: cs)).2)
      else ([], c :: d :: cs)

/-- The attribute that a text with one `@` in front spells; blanks may stand around its parts. -/
def ofChars? (cs : List Char) : Option Attribute :=
  match cs.dropWhile isGap with
  | '@' :: rest => do
    let (name, behind) ← dottedName? (rest.dropWhile isGap)
    let args ← arguments? (← tokens? behind)
    some ⟨String.ofList name, args⟩
  | _ => none

/-- Drops the first of two `@` in front of a word. -/
def dropDirectiveMark : List Char → List Char
  | '@' :: '@' :: cs => '@' :: cs
  | cs => cs

/-- The attribute that a word of a schema spells, with one `@` in front or two. -/
def parse? (word : String) : Option Attribute := ofChars? (dropDirectiveMark word.toList)

end Sieve.Schema.Attribute
