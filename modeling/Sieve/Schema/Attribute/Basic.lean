/-!
# Attributes

An attribute is a name with arguments, such as `@default(now())` or
`@relation(fields: [authorId], references: [id])`. Arguments may carry a label and may be nested.

## Main definitions

* `Attribute.Value`, `Attribute.Arg`, `Attribute` — values, arguments, attributes
* `Attribute.firstValue?`, `Attribute.labelled?` — the first argument without label, and the one
  with a given label
* `Attribute.connection?` — the first field of a relation's list
-/

namespace Sieve.Schema

/-- The value of an argument. -/
inductive Attribute.Value where
  | string (s : String)
  | int (i : Int)
  | float (x : Float)
  | bool (b : Bool)
  /-- A bare word. -/
  | word (name : String)
  /-- A call; labels of its arguments are not kept. -/
  | call (name : String) (args : List Attribute.Value)
  | list (items : List Attribute.Value)
deriving Inhabited, BEq

/-- An argument with an optional label. -/
structure Attribute.Arg where
  label : Option String
  value : Attribute.Value
deriving Inhabited, BEq

/-- An attribute. The name has no `@`; a name with dots is kept whole. -/
structure Attribute where
  name : String
  args : List Attribute.Arg
deriving Inhabited, BEq

namespace Attribute

/-- The text of a string. -/
def Value.string? : Value → Option String
  | string s => some s
  | _ => none

/-- The text of a bare word or a string; names are written both ways. -/
def Value.name? : Value → Option String
  | word s | string s => some s
  | _ => none

/-- The items of a list. -/
def Value.items? : Value → Option (List Value)
  | list vs => some vs
  | _ => none

/-- The first argument without label. -/
def firstValue? (a : Attribute) : Option Value :=
  (a.args.find? fun arg => arg.label.isNone).map Arg.value

/-- The first argument with the given label. -/
def labelled? (a : Attribute) (label : String) : Option Value :=
  (a.args.find? fun arg => arg.label == some label).map Arg.value

/-- Drops a character at both ends of a text, as often as it stands there. -/
def stripChar (c : Char) (cs : List Char) : List Char :=
  ((cs.dropWhile (· == c)).reverse.dropWhile (· == c)).reverse

/-- A name without quotes around it; none if nothing is left. -/
def unquotedName? (s : String) : Option String :=
  let cs := stripChar '\'' (stripChar '"' s.toList)
  if cs.isEmpty then none else some (String.ofList cs)

/-- The first field in the list labelled `fields`. -/
def connection? (a : Attribute) : Option String := do
  let items ← (← a.labelled? "fields").items?
  let name ← (← items.head?).name?
  unquotedName? name

end Attribute

end Sieve.Schema
