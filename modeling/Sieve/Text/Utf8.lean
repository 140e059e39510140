/-!
# Bytes as text

Reading bytes as UTF-8. A byte sequence is cut into *units* from the left: a unit is one
well-formed character, or else the longest stretch of bytes that begins like a character and goes
wrong. Strict reading refuses the second kind; lenient reading puts U+FFFD in its place, one for
each such stretch.

## Main definitions

* `Utf8.encode` — the bytes of a text
* `Utf8.unit` — the first unit: its character, if it has one, and how many bytes it takes
* `Utf8.decode?`, `Utf8.decodeLossy` — strict and lenient reading
-/

namespace Sieve.Text.Utf8

/-- The bytes of a text. -/
def encode (s : String) : List UInt8 := s.toList.flatMap String.utf8EncodeChar

/-- A byte that continues a character. -/
def isContinuation (b : UInt8) : Bool := 0x80 ≤ b && b ≤ 0xBF

/-- The bytes that may follow the lead byte `b` of a character of three or four bytes. The bounds
keep out spellings that are too long, surrogates, and numbers above U+10FFFF. -/
def secondRange (b : UInt8) : UInt8 × UInt8 :=
  if b == 0xE0 then (0xA0, 0xBF)
  else if b == 0xED then (0x80, 0x9F)
  else if b == 0xF0 then (0x90, 0xBF)
  else if b == 0xF4 then (0x80, 0x8F)
  else (0x80, 0xBF)

/-- `b` may follow the lead byte `lead`. -/
def isSecond (lead b : UInt8) : Bool := (secondRange lead).1 ≤ b && b ≤ (secondRange lead).2

/-- The low bits of a byte: its value less the marker `mark`. -/
def payload (b : UInt8) (mark : Nat) : Nat := b.toNat - mark

/-- The first unit of the bytes `b :: rest`: its character, if it is one, and how many bytes of
`rest` belong to it. -/
def unit (b : UInt8) (rest : List UInt8) : Option Char × Nat :=
  if b < 0x80 then (some (Char.ofNat b.toNat), 0)
  else if 0xC2 ≤ b && b ≤ 0xDF then
    match rest with
    | b₁ :: _ =>
      if isContinuation b₁ then
        (some (Char.ofNat (payload b 0xC0 * 64 + payload b₁ 0x80)), 1)
      else (none, 0)
    | [] => (none, 0)
  else if 0xE0 ≤ b && b ≤ 0xEF then
    match rest with
    | b₁ :: b₂ :: _ =>
      if !isSecond b b₁ then (none, 0)
      else if !isContinuation b₂ then (none, 1)
      else
        (some (Char.ofNat (payload b 0xE0 * 4096 + payload b₁ 0x80 * 64 + payload b₂ 0x80)), 2)
    | [b₁] => (none, if isSecond b b₁ then 1 else 0)
    | [] => (none, 0)
  else if 0xF0 ≤ b && b ≤ 0xF4 then
    match rest with
    | b₁ :: b₂ :: b₃ :: _ =>
      if !isSecond b b₁ then (none, 0)
      else if !isContinuation b₂ then (none, 1)
      else if !isContinuation b₃ then (none, 2)
      else
        (some (Char.ofNat (payload b 0xF0 * 262144 + payload b₁ 0x80 * 4096 +
          payload b₂ 0x80 * 64 + payload b₃ 0x80)), 3)
    | [b₁, b₂] => (none, if !isSecond b b₁ then 0 else if isContinuation b₂ then 2 else 1)
    | [b₁] => (none, if isSecond b b₁ then 1 else 0)
    | [] => (none, 0)
  else (none, 0)

/-- The units of a byte sequence, `none` for each stretch that is no character. -/
def units : List UInt8 → List (Option Char)
  | [] => []
  | b :: rest => (unit b rest).1 :: units (rest.drop (unit b rest).2)
termination_by bytes => bytes.length
decreasing_by simp only [List.length_drop, List.length_cons]; omega

/-- The text of a byte sequence, if all its units are characters. -/
def decode? (bytes : List UInt8) : Option String :=
  ((units bytes).mapM id).map String.ofList

/-- The text of a byte sequence, with U+FFFD for each stretch that is no character. -/
def decodeLossy (bytes : List UInt8) : String :=
  String.ofList ((units bytes).map fun u => u.getD '\uFFFD')

end Sieve.Text.Utf8
