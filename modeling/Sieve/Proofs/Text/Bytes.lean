import Sieve.Text.Basic
import Sieve.Text.Utf8

/-!
# Texts byte by byte

The bytes of an ASCII character are the character itself; all bytes of any other character lie above
the ASCII range. So a scanner that looks for ASCII characters only can go through a text byte by
byte: it finds them where they stand, and what it does inside of other characters is the same for
all bytes of them.

## Main definitions

* `bytes`, `byteAt?` — the bytes of a text, and one of them, as a character
* `isAscii` — the characters of one byte
* `leadByte` — the first byte of a character

## Main results

* `byteAt?_bytes` — between two characters, the byte tells the character, if it is ASCII
* `eq_behind_char`, `eq_behind_two` — a scan that passes over bytes above the ASCII range passes
  over the rest of a character
-/

namespace Sieve.Text

/-- The bytes of a text. -/
def bytes (cs : List Char) : List UInt8 := cs.flatMap String.utf8EncodeChar

/-- The byte at a place, as the character of its number. -/
def byteAt? (bs : List UInt8) (i : Nat) : Option Char := bs[i]?.map fun b => Char.ofNat b.toNat

/-- A character of the ASCII range. -/
def isAscii (c : Char) : Bool := c.toNat < 128

/-- The first byte of a character, as the character of its number. -/
def leadByte (c : Char) : Char := Char.ofNat ((String.utf8EncodeChar c).headD 0).toNat

@[simp] theorem bytes_nil : bytes [] = [] := rfl

@[simp] theorem bytes_cons (c : Char) (cs : List Char) :
    bytes (c :: cs) = String.utf8EncodeChar c ++ bytes cs := rfl

@[simp] theorem bytes_append (xs ys : List Char) : bytes (xs ++ ys) = bytes xs ++ bytes ys :=
  List.flatMap_append

@[simp] theorem length_bytes (cs : List Char) : (bytes cs).length = byteLength cs := by
  induction cs with
  | nil => rfl
  | cons c cs ih => rw [bytes_cons, List.length_append, String.length_utf8EncodeChar, ih,
      byteLength_cons]

theorem lt_length_of_byteAt? {bs : List UInt8} {i : Nat} {c : Char} (h : byteAt? bs i = some c) :
    i < bs.length := by
  obtain ⟨b, hb, -⟩ := Option.map_eq_some_iff.1 h
  exact (List.getElem?_eq_some_iff.1 hb).1

theorem byteAt?_eq_none {bs : List UInt8} {i : Nat} (h : bs.length ≤ i) : byteAt? bs i = none := by
  rw [byteAt?, List.getElem?_eq_none h, Option.map_none]

theorem exists_byteAt?_of_lt {bs : List UInt8} {i : Nat} (h : i < bs.length) :
    ∃ c, byteAt? bs i = some c := by
  rw [byteAt?, List.getElem?_eq_getElem h]
  exact ⟨_, rfl⟩

/-! ### One character -/

theorem utf8EncodeChar_of_isAscii {c : Char} (h : isAscii c = true) :
    String.utf8EncodeChar c = [UInt8.ofNat c.toNat] := by
  have hlt : c.toNat < 128 := by simpa [isAscii] using h
  have hle : c.val.toNat ≤ 127 := Nat.le_of_lt_succ hlt
  rw [String.utf8EncodeChar]
  exact if_pos hle

theorem utf8Size_of_isAscii {c : Char} (h : isAscii c = true) : c.utf8Size = 1 := by
  rw [← String.length_utf8EncodeChar, utf8EncodeChar_of_isAscii h, List.length_singleton]

theorem leadByte_of_isAscii {c : Char} (h : isAscii c = true) : leadByte c = c := by
  have hlt : c.toNat < 128 := by simpa [isAscii] using h
  rw [leadByte, utf8EncodeChar_of_isAscii h, List.headD_cons, UInt8.toNat_ofNat',
    Nat.mod_eq_of_lt (by omega), Char.ofNat_toNat]

theorem toNat_ofNat_byte (b : UInt8) : (Char.ofNat b.toNat).toNat = b.toNat := by
  have hlt := b.toNat_lt
  have hvalid : b.toNat.isValidChar := Or.inl (by omega)
  rw [Char.ofNat, dif_pos hvalid]
  rfl

/-- **All bytes of a character above the ASCII range lie above it.** -/
theorem isAscii_of_mem_utf8EncodeChar {c : Char} (h : isAscii c = false) {b : UInt8}
    (hb : b ∈ String.utf8EncodeChar c) : isAscii (Char.ofNat b.toNat) = false := by
  have hgt : ¬ c.val.toNat ≤ 127 := by
    have hge : 128 ≤ c.toNat := by simpa [isAscii] using h
    exact fun hle => Nat.not_le.2 (Nat.lt_succ_of_le hle) hge
  have hle : 128 ≤ b.toNat := by
    simp only [String.utf8EncodeChar, if_neg hgt] at hb
    split at hb
    · simp only [List.mem_cons, List.not_mem_nil, or_false] at hb
      rcases hb with rfl | rfl <;> rw [UInt8.toNat_ofNat'] <;> omega
    · split at hb
      · simp only [List.mem_cons, List.not_mem_nil, or_false] at hb
        rcases hb with rfl | rfl | rfl <;> rw [UInt8.toNat_ofNat'] <;> omega
      · simp only [List.mem_cons, List.not_mem_nil, or_false] at hb
        rcases hb with rfl | rfl | rfl | rfl <;> rw [UInt8.toNat_ofNat'] <;> omega
  rw [isAscii, toNat_ofNat_byte, decide_eq_false_iff_not]
  omega

theorem utf8EncodeChar_ne_nil (c : Char) : String.utf8EncodeChar c ≠ [] := by
  intro h
  have hlength := String.length_utf8EncodeChar c
  have hsize := c.utf8Size_pos
  rw [h, List.length_nil] at hlength
  omega

theorem isAscii_leadByte (c : Char) : isAscii (leadByte c) = isAscii c := by
  cases h : isAscii c with
  | true => rw [leadByte_of_isAscii h, h]
  | false =>
    obtain ⟨b, bs, hbs⟩ := List.exists_cons_of_ne_nil (utf8EncodeChar_ne_nil c)
    rw [leadByte, hbs]
    exact isAscii_of_mem_utf8EncodeChar h (by rw [hbs]; exact List.mem_cons_self)

/-- An ASCII character is told by its byte. -/
theorem leadByte_eq_iff {c d : Char} (hd : isAscii d = true) : leadByte c = d ↔ c = d := by
  cases hc : isAscii c with
  | true => rw [leadByte_of_isAscii hc]
  | false =>
    have hlead := isAscii_leadByte c
    constructor <;> rintro rfl
    · rw [hlead, hc] at hd
      cases hd
    · rw [hc] at hd
      cases hd

/-- So is membership in a class of characters that is the same for all characters above the ASCII
range. -/
theorem apply_leadByte {p : Char → Bool} {v : Bool} (hp : ∀ c, isAscii c = false → p c = v)
    (c : Char) : p (leadByte c) = p c := by
  cases hc : isAscii c with
  | true => rw [leadByte_of_isAscii hc]
  | false => rw [hp c hc, hp _ ((isAscii_leadByte c).trans hc)]

/-! ### Classes of characters -/

/-- A byte above the ASCII range is no ASCII character. -/
theorem ne_of_isAscii {c d : Char} (hc : isAscii c = false) (hd : isAscii d = true) : c ≠ d := by
  rintro rfl
  rw [hc] at hd
  cases hd

theorem isAscii_of_le {c d : Char} (h : c ≤ d) (hd : isAscii d = true) : isAscii c = true := by
  have hle : c.toNat ≤ d.toNat := h
  simp only [isAscii, decide_eq_true_eq] at hd ⊢
  omega

theorem isAscii_of_isIdentRest {c : Char} (h : isIdentRest c = true) : isAscii c = true := by
  simp only [isIdentRest, isAsciiLetter, isAsciiDigit, Bool.or_eq_true, Bool.and_eq_true,
    decide_eq_true_eq, beq_iff_eq] at h
  rcases h with ((h | h) | h) | rfl
  · exact isAscii_of_le h.2 rfl
  · exact isAscii_of_le h.2 rfl
  · exact isAscii_of_le h.2 rfl
  · rfl

theorem isIdentRest_of_not_isAscii {c : Char} (h : isAscii c = false) : isIdentRest c = false :=
  Bool.eq_false_iff.2 fun hc => Bool.eq_false_iff.1 h (isAscii_of_isIdentRest hc)

theorem isIdentStart_of_not_isAscii {c : Char} (h : isAscii c = false) : isIdentStart c = false :=
  Bool.eq_false_iff.2 fun hc =>
    Bool.eq_false_iff.1 h (isAscii_of_isIdentRest (isIdentRest_of_isIdentStart hc))

theorem isAscii_of_isAsciiSpace {c : Char} (h : isAsciiSpace c = true) : isAscii c = true := by
  simp only [isAsciiSpace, Bool.or_eq_true, beq_iff_eq] at h
  rcases h with (((rfl | rfl) | rfl) | rfl) | rfl <;> rfl

theorem isAsciiSpace_of_not_isAscii {c : Char} (h : isAscii c = false) :
    isAsciiSpace c = false :=
  Bool.eq_false_iff.2 fun hc => Bool.eq_false_iff.1 h (isAscii_of_isAsciiSpace hc)

/-! ### Places in a text -/

theorem eq_nil_of_byteLength_eq_zero {cs : List Char} (h : byteLength cs = 0) : cs = [] := by
  cases cs with
  | nil => rfl
  | cons c cs =>
    have hsize := c.utf8Size_pos
    rw [byteLength_cons] at h
    omega

/-- Of two ways to cut a text in two, the one with fewer bytes in front cuts first. -/
theorem exists_append_of_byteLength_le {xs ys xs' ys' : List Char} (h : xs ++ ys = xs' ++ ys')
    (hle : byteLength xs ≤ byteLength xs') : ∃ zs, xs' = xs ++ zs ∧ ys = zs ++ ys' := by
  rcases List.append_eq_append_iff.1 h with ⟨zs, hxs, hys⟩ | ⟨zs, hxs, hys⟩
  · exact ⟨zs, hxs, hys⟩
  · rw [hxs, byteLength_append] at hle
    obtain rfl : zs = [] := eq_nil_of_byteLength_eq_zero (by omega)
    exact ⟨[], by rw [hxs, List.append_nil, List.append_nil], hys.symm⟩

variable (xs ys : List Char)

/-- One byte behind an ASCII character. -/
theorem byteLength_add_one (c : Char) (hc : isAscii c = true) :
    byteLength xs + 1 = byteLength (xs ++ [c]) := by
  rw [byteLength_append, byteLength_cons, utf8Size_of_isAscii hc]
  rfl

theorem byteLength_lt_append_cons (c : Char) : byteLength xs < byteLength (xs ++ c :: ys) := by
  have hsize := c.utf8Size_pos
  rw [byteLength_append, byteLength_cons]
  omega

/-- **Between two characters, the byte tells the character.** -/
theorem byteAt?_bytes : byteAt? (bytes (xs ++ ys)) (byteLength xs) = ys.head?.map leadByte := by
  have hget : (bytes (xs ++ ys))[byteLength xs]? = (bytes ys)[0]? := by
    rw [bytes_append, List.getElem?_append_right (Nat.le_of_eq (length_bytes xs)), length_bytes,
      Nat.sub_self]
  rw [byteAt?, hget]
  cases ys with
  | nil => rfl
  | cons c ys =>
    obtain ⟨b, bs, hbs⟩ := List.exists_cons_of_ne_nil (utf8EncodeChar_ne_nil c)
    rw [bytes_cons, hbs, List.head?_cons, Option.map_some, leadByte, hbs]
    rfl

theorem byteAt?_bytes_cons (c : Char) :
    byteAt? (bytes (xs ++ c :: ys)) (byteLength xs) = some (leadByte c) :=
  byteAt?_bytes xs (c :: ys)

/-- Inside of a character above the ASCII range, all bytes lie above it. -/
theorem isAscii_of_byteAt?_inside {xs ys : List Char} {c d : Char} (hc : isAscii c = false)
    {n : Nat} (hn : n < c.utf8Size)
    (h : byteAt? (bytes (xs ++ c :: ys)) (byteLength xs + n) = some d) : isAscii d = false := by
  obtain ⟨b, hb, rfl⟩ := Option.map_eq_some_iff.1 h
  rw [bytes_append, List.getElem?_append_right (by rw [length_bytes]; omega), length_bytes,
    Nat.add_sub_cancel_left, bytes_cons,
    List.getElem?_append_left (by rw [String.length_utf8EncodeChar]; exact hn)] at hb
  exact isAscii_of_mem_utf8EncodeChar hc (List.mem_of_getElem? hb)

/-- **The last byte of a character tells of its class**, like the first. -/
theorem map_byteAt?_last {p : Char → Bool} {v : Bool} (hp : ∀ c, isAscii c = false → p c = v)
    (xs ys : List Char) (c : Char) :
    (byteAt? (bytes (xs ++ c :: ys)) (byteLength (xs ++ [c]) - 1)).map p = some (p c) := by
  have hsize := c.utf8Size_pos
  have hplace : byteLength (xs ++ [c]) - 1 = byteLength xs + (c.utf8Size - 1) := by
    rw [byteLength_append, byteLength_cons, byteLength_nil]
    omega
  rw [hplace]
  cases hc : isAscii c with
  | true =>
    rw [utf8Size_of_isAscii hc, Nat.sub_self, Nat.add_zero, byteAt?_bytes_cons, Option.map_some,
      apply_leadByte hp]
  | false =>
    have hlt : byteLength xs + (c.utf8Size - 1) < (bytes (xs ++ c :: ys)).length := by
      rw [length_bytes, byteLength_append, byteLength_cons]
      omega
    obtain ⟨d, hd⟩ := exists_byteAt?_of_lt hlt
    rw [hd, Option.map_some, hp c hc, hp d (isAscii_of_byteAt?_inside hc (by omega) hd)]

/-- What does not change with a byte above the ASCII range does not change within a character. -/
theorem eq_of_step_in_char {α : Type} {f : Nat → α} {xs ys : List Char} {c : Char}
    (hf : ∀ i d, byteAt? (bytes (xs ++ c :: ys)) i = some d → isAscii d = false → f i = f (i + 1))
    (hc : isAscii c = false) {n : Nat} (hn : n ≤ c.utf8Size) :
    f (byteLength xs + n) = f (byteLength xs + c.utf8Size) := by
  obtain ⟨k, hk⟩ := Nat.exists_eq_add_of_le hn
  induction k generalizing n with
  | zero => rw [hk, Nat.add_zero]
  | succ k ih =>
    have hlt : byteLength xs + n < (bytes (xs ++ c :: ys)).length := by
      rw [length_bytes, byteLength_append, byteLength_cons]
      omega
    obtain ⟨d, hd⟩ := exists_byteAt?_of_lt hlt
    rw [hf _ d hd (isAscii_of_byteAt?_inside hc (by omega) hd), Nat.add_assoc]
    exact ih (by omega) (by omega)

/-- **Behind the first byte of a character**, such a scan goes on behind the character. -/
theorem eq_behind_char {α : Type} {f : Nat → α} {xs : List Char} {c : Char} (ys : List Char)
    (hf : isAscii c = false → ∀ i d, byteAt? (bytes (xs ++ c :: ys)) i = some d →
      isAscii d = false → f i = f (i + 1)) :
    f (byteLength xs + 1) = f (byteLength (xs ++ [c])) := by
  have hlength : byteLength (xs ++ [c]) = byteLength xs + c.utf8Size := by
    rw [byteLength_append]
    rfl
  rw [hlength]
  cases hc : isAscii c with
  | true => rw [utf8Size_of_isAscii hc]
  | false => exact eq_of_step_in_char (hf hc) hc c.utf8Size_pos

/-- **Two bytes behind an ASCII character and no further**: a scan that also stands still behind the
end of the text goes on behind the next character, also if that is a longer one or none. -/
theorem eq_behind_two {α : Type} {f : Nat → α} (xs : List Char) {c : Char} (ys : List Char)
    (hc : isAscii c = true)
    (hf : ∀ i d, byteAt? (bytes (xs ++ c :: ys)) i = some d → isAscii d = false → f i = f (i + 1))
    (hend : ∀ i, byteLength (xs ++ c :: ys) ≤ i → f i = f (byteLength (xs ++ c :: ys))) :
    f (byteLength xs + 2) = f (byteLength (xs ++ c :: ys.take 1)) := by
  have hnext : byteLength xs + 2 = byteLength (xs ++ [c]) + 1 := by
    rw [← byteLength_add_one xs c hc]
  rw [hnext]
  cases ys with
  | nil => exact hend _ (Nat.le_succ _)
  | cons d ys =>
    rw [List.append_cons] at hf
    rw [eq_behind_char ys fun _ => hf, List.append_assoc]
    rfl

end Sieve.Text
