/-!
# Characters and texts

Keywords, identifiers and option words are ASCII, so their classes are spelled out here and mean
the same on every text: a character above U+007F is in none of them. What is trimmed off a text are
the characters with the property `White_Space`. The ASCII blanks are among them, and so is the
vertical tab.

A reader that takes a piece off the front of a text leaves a rest that is no longer than the text.
Rests carry this, so that reading piece after piece comes to an end.

## Main definitions

* `isIdentStart`, `isIdentRest`, `isIdent` — identifiers `[A-Za-z_][A-Za-z0-9_]*`
* `isAsciiSpace` — the five ASCII blanks: space, tab, line feed, form feed and carriage return
* `digitsValue`, `hexDigitsValue?`, `scalar?` — numbers that digits spell, and their characters
* `foldCase`, `eqIgnoringCase` — comparison that ignores ASCII case
* `isBlank`, `trim` — the blanks of Unicode, and trimming by them
* `byteLength` — the size of a text in UTF-8
* `Rest` — a text that is no longer than another
-/

namespace Sieve.Text

/-! ### ASCII classes -/

/-- An ASCII letter. -/
def isAsciiLetter (c : Char) : Bool :=
  ('a' ≤ c && c ≤ 'z') || ('A' ≤ c && c ≤ 'Z')

/-- An ASCII digit. -/
def isAsciiDigit (c : Char) : Bool := '0' ≤ c && c ≤ '9'

/-- A character that may begin an identifier. -/
def isIdentStart (c : Char) : Bool := isAsciiLetter c || c == '_'

/-- A character that may continue an identifier. -/
def isIdentRest (c : Char) : Bool := isAsciiLetter c || isAsciiDigit c || c == '_'

/-- A whole identifier. -/
def isIdent : List Char → Bool
  | [] => false
  | c :: cs => isIdentStart c && cs.all isIdentRest

/-- An ASCII blank; the vertical tab is not one. -/
def isAsciiSpace (c : Char) : Bool :=
  c == ' ' || c == '\t' || c == '\n' || c == '\x0c' || c == '\r'

theorem isIdentRest_of_isIdentStart {c : Char} (h : isIdentStart c = true) :
    isIdentRest c = true := by
  simp only [isIdentStart, isIdentRest, Bool.or_eq_true] at *
  rcases h with h | h <;> simp [h]

/-! ### Digits -/

/-- The value of a digit character. -/
def digitValue (c : Char) : Nat := c.toNat - '0'.toNat

/-- The number that a run of digits spells. -/
def digitsValue (cs : List Char) : Nat := cs.foldl (fun n c => n * 10 + digitValue c) 0

/-- The value of a hexadecimal digit. -/
def hexValue? (c : Char) : Option Nat :=
  if isAsciiDigit c then some (digitValue c)
  else if 'a' ≤ c ∧ c ≤ 'f' then some (c.toNat - 'a'.toNat + 10)
  else if 'A' ≤ c ∧ c ≤ 'F' then some (c.toNat - 'A'.toNat + 10)
  else none

/-- The number that a run of hexadecimal digits spells; `none` if one of them is none. -/
def hexDigitsValue? (cs : List Char) : Option Nat :=
  cs.foldlM (fun n c => (hexValue? c).map (n * 16 + ·)) 0

/-- The character of a scalar value; surrogates and numbers above U+10FFFF have none. -/
def scalar? (n : Nat) : Option Char :=
  if h : n.isValidChar then some (Char.ofNatAux n h) else none

/-! ### Case -/

/-- Maps ASCII capitals to small letters and keeps all else. -/
def foldCase (s : String) : String := String.ofList (s.toList.map Char.toLower)

/-- Equality up to ASCII case. -/
def eqIgnoringCase (s t : String) : Bool := foldCase s == foldCase t

/-! ### Blanks -/

/-- The character ranges with the property `White_Space`, ends included, in increasing order. -/
def blankRanges : List (Nat × Nat) :=
  [(0x09, 0x0D), (0x20, 0x20), (0x85, 0x85), (0xA0, 0xA0), (0x1680, 0x1680), (0x2000, 0x200A),
    (0x2028, 0x2029), (0x202F, 0x202F), (0x205F, 0x205F), (0x3000, 0x3000)]

/-- A character with the property `White_Space`. -/
def isBlank (c : Char) : Bool := blankRanges.any fun r => r.1 ≤ c.toNat && c.toNat ≤ r.2

/-- Drops the blanks at the end. -/
def dropBlankEnd (cs : List Char) : List Char := (cs.reverse.dropWhile isBlank).reverse

/-- Drops the blanks at both ends. -/
def trimChars (cs : List Char) : List Char := dropBlankEnd (cs.dropWhile isBlank)

/-- Drops the blanks at both ends. -/
def trim (s : String) : String := String.ofList (trimChars s.toList)

/-! ### Bytes -/

/-- Number of bytes of a text in UTF-8. -/
def byteLength : List Char → Nat
  | [] => 0
  | c :: cs => c.utf8Size + byteLength cs

@[simp] theorem byteLength_nil : byteLength [] = 0 := rfl

@[simp] theorem byteLength_cons (c : Char) (cs : List Char) :
    byteLength (c :: cs) = c.utf8Size + byteLength cs := rfl

@[simp] theorem byteLength_append (xs ys : List Char) :
    byteLength (xs ++ ys) = byteLength xs + byteLength ys := by
  induction xs with
  | nil => simp
  | cons c cs ih => simp [ih, Nat.add_assoc]

/-! ### Rests -/

/-- A text that is no longer than `cs`. -/
abbrev Rest (cs : List Char) := { r : List Char // r.length ≤ cs.length }

namespace Rest

/-- The whole text. -/
def all (cs : List Char) : Rest cs := ⟨cs, Nat.le_refl _⟩

/-- A shorter text. -/
def ofLt {cs : List Char} (r : List Char) (h : r.length < cs.length) : Rest cs :=
  ⟨r, Nat.le_of_lt h⟩

/-- The text without the characters of a class at its front. -/
def dropWhile (p : Char → Bool) (cs : List Char) : Rest cs :=
  ⟨cs.dropWhile p, (List.dropWhile_sublist p).length_le⟩

end Rest

end Sieve.Text
