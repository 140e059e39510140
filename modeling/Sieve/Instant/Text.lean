import Sieve.Instant.Basic
import Sieve.Text.Basic

/-!
# Instants as text

Writing an instant as an RFC 3339 date-time in UTC, and reading one from four forms: RFC 3339 with
any offset, a date and a time without offset joined by `T` or by blanks, and a bare date. What has
no offset is taken as UTC.

## Main definitions

* `Instant.text` — the written form, with 0, 3, 6 or 9 digits of the second's fraction
* `Instant.ofRfc3339?`, `Instant.ofLocal?`, `Instant.ofDate?` — the forms read
* `Instant.read?` — the first form that fits, blanks around it ignored
-/

namespace Sieve.Instant

open Sieve.Text

/-! ### Writing -/

/-- A number in at least `width` digits. -/
def padded (width n : Nat) : List Char :=
  let digits := Nat.toDigits 10 n
  List.replicate (width - digits.length) '0' ++ digits

/-- A year: four digits from 0 to 9999, and outside of that a sign and at least four digits. -/
def yearText (year : Int) : List Char :=
  if 0 ≤ year ∧ year ≤ 9999 then padded 4 year.toNat
  else (if year < 0 then '-' else '+') :: padded 4 year.natAbs

/-- The fraction of a second in the fewest of 0, 3, 6 and 9 digits that are exact. -/
def fractionText (nano : Nat) : List Char :=
  if nano = 0 then []
  else if nano % 1000000 = 0 then '.' :: padded 3 (nano / 1000000)
  else if nano % 1000 = 0 then '.' :: padded 6 (nano / 1000)
  else '.' :: padded 9 nano

/-- The characters of `text`. -/
def chars (t : Instant) : List Char :=
  yearText t.date.year ++ '-' :: padded 2 t.date.month ++ '-' :: padded 2 t.date.day ++
    'T' :: padded 2 t.hour ++ ':' :: padded 2 t.minute ++ ':' :: padded 2 t.second ++
    fractionText t.nano ++ ['Z']

/-- The instant as an RFC 3339 date-time in UTC. -/
def text (t : Instant) : String := String.ofList t.chars

/-! ### Pieces of the forms

Each reader takes a piece off the front of a text and returns its value with what follows. -/

/-- One given character. -/
def literal? (c : Char) : List Char → Option (List Char)
  | [] => none
  | d :: cs => if d = c then some cs else none

/-- Exactly `width` digits. -/
def fixedNumber? (width : Nat) (cs : List Char) : Option (Nat × List Char) :=
  let digits := cs.take width
  if digits.length = width && digits.all isAsciiDigit then
    some (digitsValue digits, cs.drop width)
  else none

/-- Between one and `width` digits, as many as there are. -/
def number? (width : Nat) (cs : List Char) : Option (Nat × List Char) :=
  let digits := (cs.take width).takeWhile isAsciiDigit
  if digits.isEmpty then none else some (digitsValue digits, cs.drop digits.length)

/-- Digits without bound. -/
def longNumber? (cs : List Char) : Option (Nat × List Char) := number? cs.length cs

/-- Blanks, then between one and `width` digits. -/
def looseNumber? (width : Nat) (cs : List Char) : Option (Nat × List Char) :=
  number? width (cs.dropWhile isBlank)

/-- Blanks, then a year: up to four digits, or a sign and any number of digits. -/
def looseYear? (cs : List Char) : Option (Int × List Char) :=
  match cs.dropWhile isBlank with
  | '-' :: r => (longNumber? r).map fun p => (-(p.1 : Int), p.2)
  | '+' :: r => (longNumber? r).map fun p => ((p.1 : Int), p.2)
  | r => (number? 4 r).map fun p => ((p.1 : Int), p.2)

/-- Nanoseconds spelled by the digits of a fraction: the ninth digit and those before it count. -/
def nanoValue (digits : List Char) : Nat :=
  let kept := digits.take 9
  digitsValue kept * Nat.pow 10 (9 - kept.length)

/-- An optional fraction: a point and at least one digit. -/
def fraction? : List Char → Option (Nat × List Char)
  | '.' :: cs =>
    let digits := cs.takeWhile isAsciiDigit
    if digits.isEmpty then none else some (nanoValue digits, cs.dropWhile isAsciiDigit)
  | cs => some (0, cs)

/-- The end of the text. -/
def finish? : List Char → Option Unit
  | [] => some ()
  | _ => none

/-- The instant, if it exists. -/
def checked? (t : Instant) : Option Instant := if t.isValid then some t else none

/-! ### The forms -/

/-- An offset from UTC in minutes: `Z`, or a sign, two digits, a colon and two digits. -/
def offset? : List Char → Option Int
  | [] => none
  | c :: cs =>
    if c = 'Z' ∨ c = 'z' then (finish? cs).map fun _ => 0
    else if c = '+' ∨ c = '-' ∨ c = '\u2212' then do
      let (hours, cs) ← fixedNumber? 2 cs
      let cs ← literal? ':' cs
      let (minutes, cs) ← fixedNumber? 2 cs
      finish? cs
      if hours < 24 ∧ minutes < 60 then
        let size : Int := hours * 60 + minutes
        some (if c = '+' then size else -size)
      else none
    else none

/-- A separator between date and time in RFC 3339. -/
def dateTimeMark? : List Char → Option (List Char)
  | [] => none
  | c :: cs => if c = 'T' ∨ c = 't' ∨ c = ' ' then some cs else none

/-- An RFC 3339 date-time, moved to UTC. -/
def ofRfc3339? (cs : List Char) : Option Instant := do
  let (year, cs) ← fixedNumber? 4 cs
  let cs ← literal? '-' cs
  let (month, cs) ← fixedNumber? 2 cs
  let cs ← literal? '-' cs
  let (day, cs) ← fixedNumber? 2 cs
  let cs ← dateTimeMark? cs
  let (hour, cs) ← fixedNumber? 2 cs
  let cs ← literal? ':' cs
  let (minute, cs) ← fixedNumber? 2 cs
  let cs ← literal? ':' cs
  let (second, cs) ← fixedNumber? 2 cs
  let (nano, cs) ← fraction? cs
  let offset ← offset? cs
  let t ← checked? ⟨⟨year, month, day⟩, hour, minute, second, nano⟩
  some (t.shift (-offset))

/-- A date of loosely spaced numbers, and what follows. -/
def looseDate? (cs : List Char) : Option (Date × List Char) := do
  let (year, cs) ← looseYear? cs
  let cs ← literal? '-' cs
  let (month, cs) ← looseNumber? 2 cs
  let cs ← literal? '-' cs
  let (day, cs) ← looseNumber? 2 cs
  some (⟨year, month, day⟩, cs)

/-- A date and a time without offset, with `mark?` between them. -/
def ofLocal? (mark? : List Char → Option (List Char)) (cs : List Char) : Option Instant := do
  let (date, cs) ← looseDate? cs
  let cs ← mark? cs
  let (hour, cs) ← looseNumber? 2 cs
  let cs ← literal? ':' cs
  let (minute, cs) ← looseNumber? 2 cs
  let cs ← literal? ':' cs
  let (second, cs) ← looseNumber? 2 cs
  let (nano, cs) ← fraction? cs
  finish? cs
  checked? ⟨date, hour, minute, second, nano⟩

/-- A bare date: midnight of that day. -/
def ofDate? (cs : List Char) : Option Instant := do
  let (date, cs) ← looseDate? cs
  finish? cs
  checked? ⟨date, 0, 0, 0, 0⟩

/-- The instant that a text spells in the first form that fits. Between a date and a time without
offset stands a `T`, or blanks, which may be missing. -/
def read? (s : String) : Option Instant :=
  let cs := trimChars s.toList
  ofRfc3339? cs <|> ofLocal? (literal? 'T') cs <|> ofLocal? some cs <|> ofDate? cs

end Sieve.Instant
