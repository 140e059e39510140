import Sieve.Schema.Word

/-!
# Declarations

The words of a model's body are grouped into declarations of fields and directives. A declaration
ends with its line. Several may share a line: once a declaration has its name and its type, the next
word that begins like an identifier starts a new one. A directive is a word with two `@` in front.

## Main definitions

* `Declaration` — the words of a field, or a directive
* `group` — the declarations in a list of tokens
-/

namespace Sieve.Schema

/-- A declaration in the body of a model. -/
inductive Declaration where
  | field (words : List Word)
  | directive (word : Word)
deriving Repr

/-- The declaration of a field, if there are words for it. -/
def fieldOf : List Word → List Declaration
  | [] => []
  | words => [.field words]

/-- The word is a directive. -/
def Word.isDirective (w : Word) : Bool := ['@', '@'].isPrefixOf w.text

/-- The word is a brace that stands alone. -/
def Word.isBrace (w : Word) : Bool := w.text == ['\x7b'] || w.text == ['\x7d']

/-- The declarations in a list of tokens, given the words of the one begun before it. -/
def group (current : List Word) : List Token → List Declaration
  | [] => fieldOf current
  | .newline _ :: ts => fieldOf current ++ group [] ts
  | .word w :: ts =>
    if w.isBrace then group current ts
    else if w.isDirective then fieldOf current ++ .directive w :: group [] ts
    else if 2 ≤ current.length && w.startsIdent then fieldOf current ++ group [w] ts
    else group (current ++ [w]) ts

/-- The declarations in a body. -/
def declarations (body : String) : List Declaration := group [] (tokens body)

end Sieve.Schema
