import Sieve.Json.Value
import Sieve.Decimal.Layout

/-!
# Writing JSON

Two forms of the same text: compact, without any blank, and indented by two spaces a level. Only
the quote, the backslash and the controls below U+0020 are escaped.
-/

namespace Sieve.Json

/-- The hexadecimal digit of a number below sixteen, in small letters. -/
def hexDigit (n : Nat) : Char := Nat.digitChar (n % 16)

/-- A character inside a string literal. -/
def escapeChar (c : Char) : List Char :=
  if c == '"' then ['\\', '"']
  else if c == '\\' then ['\\', '\\']
  else if c == '\x08' then ['\\', 'b']
  else if c == '\t' then ['\\', 't']
  else if c == '\n' then ['\\', 'n']
  else if c == '\x0c' then ['\\', 'f']
  else if c == '\r' then ['\\', 'r']
  else if c.toNat < 0x20 then
    ['\\', 'u', '0', '0', hexDigit (c.toNat / 16), hexDigit (c.toNat % 16)]
  else [c]

/-- A string literal with its quotes. -/
def quote (s : String) : String := String.ofList ('"' :: s.toList.flatMap escapeChar ++ ['"'])

/-- A number; one that is not finite has no text in JSON and is written `null`. -/
def floatText (x : Float) : String :=
  if x.isFinite then Decimal.Layout.data.write x else "null"

mutual

/-- The text without blanks. -/
def compact : Json → String
  | null => "null"
  | bool true => "true"
  | bool false => "false"
  | int i => toString i
  | float x => floatText x
  | string s => quote s
  | array items => "[" ++ ",".intercalate (compactList items) ++ "]"
  | object entries => "\x7b" ++ ",".intercalate (compactEntries entries) ++ "\x7d"

/-- The texts of the items. -/
def compactList : List Json → List String
  | [] => []
  | v :: vs => compact v :: compactList vs

/-- The texts of the entries. -/
def compactEntries : List (String × Json) → List String
  | [] => []
  | (k, v) :: es => (quote k ++ ":" ++ compact v) :: compactEntries es

end

/-- A line break and the blanks of a level. -/
def newline (level : Nat) : String := "\n" ++ String.ofList (List.replicate (2 * level) ' ')

/-- A bracketed block with one part a line; empty brackets stay together. -/
def block (level : Nat) (opening closing : String) : List String → String
  | [] => opening ++ closing
  | parts =>
    opening ++ newline (level + 1) ++ ("," ++ newline (level + 1)).intercalate parts ++
      newline level ++ closing

mutual

/-- The indented text, at a given level. -/
def prettyAt (level : Nat) : Json → String
  | array items => block level "[" "]" (prettyList (level + 1) items)
  | object entries => block level "\x7b" "\x7d" (prettyEntries (level + 1) entries)
  | v => compact v

/-- The indented texts of the items. -/
def prettyList (level : Nat) : List Json → List String
  | [] => []
  | v :: vs => prettyAt level v :: prettyList level vs

/-- The indented texts of the entries. -/
def prettyEntries (level : Nat) : List (String × Json) → List String
  | [] => []
  | (k, v) :: es => (quote k ++ ": " ++ prettyAt level v) :: prettyEntries level es

end

/-- The text indented by two spaces a level. -/
def pretty (v : Json) : String := prettyAt 0 v

end Sieve.Json
