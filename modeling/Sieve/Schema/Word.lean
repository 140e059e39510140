import Sieve.Schema.Mode
import Sieve.Schema.Span

/-!
# Words

The body of a block is cut into words at blanks. Brackets, parentheses and string literals keep
together what they enclose, so that an attribute with its arguments is one word. Line breaks between
words are kept, because a declaration ends with its line; comments between words are dropped.

## Main definitions

* `Word`, `Token` — a word with its place; a word or a line break
* `wordSpan` — the rest of a word, and what follows it
* `tokens` — the words and line breaks of a body

## Main results

* `wordSpan_append` — cutting off a word loses nothing
-/

namespace Sieve.Schema

open Sieve.Text

/-- A word of a body; its span is counted from the start of the body. -/
structure Word where
  text : List Char
  span : Span
deriving Repr, DecidableEq, Inhabited

/-- A word or a line break. -/
inductive Token where
  | word (w : Word)
  | newline (span : Span)
deriving Repr, DecidableEq

/-- A comment begins here. -/
def startsComment (c : Char) (cs : List Char) : Bool := c == '/' && cs.head? == some '/'

/-- A word ends before `c`. -/
def endsWord (m : Mode) (depth : Nat) (c : Char) (cs : List Char) : Bool :=
  m = .code && depth = 0 && (isAsciiSpace c || startsComment c cs)

/-- The rest of a word, inside `depth` brackets, and what follows it. -/
def wordSpan (m : Mode) (depth : Nat) : List Char → List Char × List Char
  | [] => ([], [])
  | c :: cs =>
    let read := m.reading c
    if endsWord read depth c cs then ([], c :: cs)
    else
      let p := wordSpan (read.afterWord c) (if read = .code then groupDepth depth c else depth) cs
      (c :: p.1, p.2)

theorem wordSpan_append (m : Mode) (depth : Nat) (cs : List Char) :
    (wordSpan m depth cs).1 ++ (wordSpan m depth cs).2 = cs := by
  induction cs generalizing m depth with
  | nil => rfl
  | cons c cs ih =>
    rw [wordSpan]
    split
    · rfl
    · simp [ih]

theorem length_wordSpan_le (m : Mode) (depth : Nat) (cs : List Char) :
    (wordSpan m depth cs).2.length ≤ cs.length := by
  have := congrArg List.length (wordSpan_append m depth cs)
  simp only [List.length_append] at this
  omega

/-- The words and line breaks of a text that begins at byte `pos`. -/
def tokensFrom (pos : Nat) : List Char → List Token
  | [] => []
  | c :: cs =>
    if c = '\n' then .newline ⟨pos, pos + 1⟩ :: tokensFrom (pos + 1) cs
    else if isAsciiSpace c then tokensFrom (pos + c.utf8Size) cs
    else if startsComment c cs then
      tokensFrom (pos + c.utf8Size + byteLength (cs.takeWhile (· ≠ '\n'))) (cs.dropWhile (· ≠ '\n'))
    else
      let p := wordSpan (Mode.code.afterWord c) (groupDepth 0 c) cs
      let stop := pos + byteLength (c :: p.1)
      .word ⟨c :: p.1, ⟨pos, stop⟩⟩ :: tokensFrom stop p.2
termination_by cs => cs.length
decreasing_by
  · simp
  · simp
  · have := (List.dropWhile_sublist (l := cs) (· ≠ '\n')).length_le
    simp only [List.length_cons]
    omega
  · have := length_wordSpan_le (Mode.code.afterWord c) (groupDepth 0 c) cs
    simp only [List.length_cons]
    omega

/-- The words and line breaks of a body. -/
def tokens (body : String) : List Token := tokensFrom 0 body.toList

/-- The word begins like an identifier. -/
def Word.startsIdent (w : Word) : Bool := w.text.head?.any isIdentStart

end Sieve.Schema
