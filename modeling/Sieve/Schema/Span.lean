import Sieve.Text.Basic

/-!
# Spans

Places in a schema text, counted in bytes of UTF-8. A span cuts a piece out of the text only if
both its ends fall between two characters.

## Main definitions

* `Span`, `Span.shift` — a stretch of text, and moving it
* `dropBytes?`, `takeBytes?`, `Span.slice?` — cutting by bytes; none inside a character
-/

namespace Sieve.Schema

open Sieve.Text

/-- A stretch of text, in bytes; `stop` is the first byte after it. -/
structure Span where
  start : Nat
  stop : Nat
deriving Repr, DecidableEq, Inhabited

/-- Moves a span by a number of bytes. -/
def Span.shift (s : Span) (n : Nat) : Span := ⟨s.start + n, s.stop + n⟩

/-- What follows the first `n` bytes. -/
def dropBytes? : Nat → List Char → Option (List Char)
  | 0, cs => some cs
  | _ + 1, [] => none
  | n + 1, c :: cs => if c.utf8Size ≤ n + 1 then dropBytes? (n + 1 - c.utf8Size) cs else none
termination_by _ cs => cs.length

/-- The first `n` bytes. -/
def takeBytes? : Nat → List Char → Option (List Char)
  | 0, _ => some []
  | _ + 1, [] => none
  | n + 1, c :: cs =>
    if c.utf8Size ≤ n + 1 then (takeBytes? (n + 1 - c.utf8Size) cs).map (c :: ·) else none
termination_by _ cs => cs.length

/-- The piece of a text in a span. -/
def Span.slice? (s : Span) (text : List Char) : Option (List Char) :=
  if s.start ≤ s.stop then (dropBytes? s.start text).bind (takeBytes? (s.stop - s.start)) else none

end Sieve.Schema
