import Sieve.Text.Basic
import Sieve.Schema.Mode

/-!
# Attributes as written

What can be told of an attribute word without reading its arguments in full: its name, the text of
its first argument, and the first field of a list labelled `fields`. These readings also work on
words that are malformed further on.

## Main definitions

* `rawName` — the name at the start of a word
* `firstArgument?` — the text of the first argument
* `listedField?` — the first field that a word lists
-/

namespace Sieve.Schema

open Sieve.Text

/-- A character of a name with dots. -/
def isNameChar (c : Char) : Bool := isIdentRest c || c == '.'

/-- The name at the start of an attribute word, behind all its `@`. -/
def rawName (word : String) : String :=
  String.ofList ((word.toList.dropWhile (· == '@')).takeWhile isNameChar)

/-- The text between the first opening and the last closing parenthesis. -/
def argumentText? (cs : List Char) : Option (List Char) :=
  match cs.dropWhile (· ≠ '(') with
  | [] => none
  | _ :: inside =>
    match inside.reverse.dropWhile (· ≠ ')') with
    | [] => none
    | _ :: kept => some kept.reverse

/-- A text up to its first comma outside of all brackets and string literals. -/
def untilComma (m : Mode) (depth : Nat) : List Char → List Char
  | [] => []
  | c :: cs =>
    if m = .code then
      if c = ',' ∧ depth = 0 then []
      else c :: untilComma (m.afterWord c) (groupDepth depth c) cs
    else c :: untilComma (m.afterWord c) depth cs

/-- The text of the first argument of an attribute word, blanks around it left out. -/
def firstArgument? (word : String) : Option String :=
  (argumentText? word.toList).map fun cs => String.ofList (trimChars (untilComma .code 0 cs))

/-! ### Listed fields -/

/-- A blank inside a list of fields: an ASCII blank or a vertical tab. -/
def isListBlank (c : Char) : Bool := isAsciiSpace c || c == '\x0b'

/-- What follows `mark` in front of a text. -/
def after? (mark cs : List Char) : Option (List Char) :=
  if mark.isPrefixOf cs then some (cs.drop mark.length) else none

/-- Drops one quote in front. -/
def dropQuote : List Char → List Char
  | [] => []
  | c :: cs => if c = '"' ∨ c = '\'' then cs else c :: cs

/-- The first field of a list labelled `fields` that begins the text. -/
def listedFieldHere? (cs : List Char) : Option String := do
  let cs ← after? "fields".toList cs
  let cs ← after? [':'] (cs.dropWhile isListBlank)
  let cs ← after? ['['] (cs.dropWhile isListBlank)
  let name := (dropQuote (cs.dropWhile isListBlank)).takeWhile isIdentRest
  if isIdent name then some (String.ofList name) else none

/-- The first field of the first list labelled `fields` in a text. -/
def listedField? : List Char → Option String
  | [] => none
  | c :: cs =>
    match listedFieldHere? (c :: cs) with
    | some name => some name
    | none => listedField? cs

end Sieve.Schema
