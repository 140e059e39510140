import Sieve.Filter.Error
import Sieve.Json.Merge
import Sieve.Json.Reader
import Sieve.Text.Split
import Sieve.Text.Utf8

/-!
# Parameters

The parameters of a request, in order: read from a query string, or from a JSON object.

A query string is a list of decoded pairs first. A key that comes once has its text as value; a key
that comes again has the list of all its texts, at the place where it came first.

## Main definitions

* `decodedPairs` — the pairs of a query string, decoded
* `Params.ofPairs`, `Params.ofQueryString` — their parameters
* `Params.ofJsonText` — the parameters in a JSON document
* `Params.layered` — several documents laid over one another
-/

namespace Sieve.Filter

/-- Parameters in order. -/
abbrev Params := Entries Json

/-! ### Query strings -/

/-- The bytes of a text with its escapes undone: a plus is a blank, `%` and two hexadecimal digits
are a byte, and a `%` without them stands for itself. -/
def unescapedBytes : List Char → List UInt8
  | [] => []
  | '+' :: cs => 0x20 :: unescapedBytes cs
  | '%' :: a :: b :: cs =>
    match Text.hexDigitsValue? [a, b] with
    | some n => n.toUInt8 :: unescapedBytes cs
    | none => 0x25 :: unescapedBytes (a :: b :: cs)
  | c :: cs => String.utf8EncodeChar c ++ unescapedBytes cs

/-- The text that an escaped text spells. -/
def unescaped (cs : List Char) : String := Text.Utf8.decodeLossy (unescapedBytes cs)

/-- A piece of a query string as a pair, cut at its first equals sign. -/
def decodedPair (piece : List Char) : String × String :=
  (unescaped (piece.takeWhile (· ≠ '=')), unescaped ((piece.dropWhile (· ≠ '=')).drop 1))

/-- The pairs of a query string in order. One question mark in front is left out, and so are pieces
without any character. -/
def decodedPairs (query : String) : List (String × String) :=
  let cs := match query.toList with
    | '?' :: cs => cs
    | cs => cs
  ((Text.splitAt '&' cs).filter fun piece => !piece.isEmpty).map decodedPair

namespace Params

/-- The value of a key that comes once more, with the text `s`. -/
def collect : Option Json → String → Json
  | none, s => .string s
  | some (.array items), s => .array (items ++ [.string s])
  | some v, s => .array [v, .string s]

/-- The parameters of decoded pairs. -/
def ofPairs (pairs : List (String × String)) : Params :=
  pairs.foldl (fun ps p => Entries.insert ps p.1 (collect (Entries.get? ps p.1) p.2)) []

/-- The parameters of a query string. -/
def ofQueryString (query : String) : Params := ofPairs (decodedPairs query)

/-! ### JSON documents -/

/-- The parameters of a JSON value. -/
def ofJson : Json → Except Error Params
  | .object entries => .ok entries
  | v => .error (.notAnObject v)

/-- The parameters in a JSON document. -/
def ofJsonText (text : String) : Except Error Params :=
  match Json.read? text with
  | none => .error .unreadable
  | some v => ofJson v

/-- Documents laid over one another in turn, starting from no parameters. -/
def layered (documents : List Params) : Json :=
  documents.foldl (fun v ps => v.merge (.object ps)) (.object [])

/-- The parameters of documents laid over one another. -/
def ofLayers (documents : List Params) : Params :=
  match layered documents with
  | .object params => params
  | _ => []

end Params

end Sieve.Filter
