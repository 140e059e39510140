import Sieve.Proofs.Schema.Comments
import Sieve.Proofs.Text.Bytes

/-!
# Scanning byte by byte

A schema can also be read by scanners that go through its bytes and know nothing but the number of
the byte that they look at. Such a scanner can go wrong: it may read behind the end of the text,
take one from a depth of zero, cut a text inside of a character, or stand still. Here the steps that
can go wrong are checked, and a scanner that goes wrong has no result.

None of them ever does. A backslash in a string literal makes the scan jump over two bytes, and the
second may be the first of several or may not be there; but then the scan goes on to the end of the
character or the text. So wherever a scanner stops, it stands between two characters, and what it
finds is what is found character by character.

## Main definitions

* `runEnd`, `stringEnd`, `lineEnd?` — the ends of a run of characters, a string literal and a line
* `closingBrace?`, `wordEnd?` — the brace that closes a body, and the end of a word
* `Mode.span` — the rest of a string literal or a comment

## Main results

* `runEnd_bytes`, `stringEnd_bytes`, `lineEnd?_bytes` — where these ends are
* `closingBrace?_bytes`, `wordEnd?_bytes` — the same for bodies and words
-/

namespace Sieve.Schema

open Sieve.Text

/-! ### Scanners -/

variable (bs : List UInt8)

/-- The end of the run of bytes of a class that begins at `i`. -/
def runEnd (p : Char → Bool) (i : Nat) : Nat :=
  match _h : byteAt? bs i with
  | none => i
  | some c => if p c then runEnd p (i + 1) else i
termination_by bs.length - i
decreasing_by
  have hlt := lt_length_of_byteAt? _h
  omega

/-- The end of the string literal whose inside begins at `i`: behind its quote, or at the line break
or the end of the text. -/
def stringEnd (i : Nat) : Nat :=
  match _h : byteAt? bs i with
  | none => bs.length
  | some c =>
    if c = '\\' then stringEnd (i + 2)
    else if c = '"' then i + 1
    else if c = '\n' then i
    else stringEnd (i + 1)
termination_by bs.length - i
decreasing_by
  · have hlt := lt_length_of_byteAt? _h
    omega
  · have hlt := lt_length_of_byteAt? _h
    omega

/-- The end of the line at `i`. None behind the end of the text. -/
def lineEnd? (i : Nat) : Option Nat :=
  if i ≤ bs.length then some (runEnd bs (· ≠ '\n') i) else none

/-- A comment begins at `i`, where the byte `c` is read. -/
def commentAt (i : Nat) (c : Char) : Bool := c == '/' && byteAt? bs (i + 1) == some '/'

/-- The brace that closes the one at `i`, or at a place further in front, with `depth` braces open
in between; none inside of the result if there is no such brace. -/
def closingBrace? (depth i : Nat) : Option (Option Nat) :=
  match _h : byteAt? bs i with
  | none => some none
  | some c =>
    if commentAt bs i c then
      (lineEnd? bs i).bind fun j => if i < j then closingBrace? depth j else none
    else if c = '"' then
      let j := stringEnd bs (i + 1)
      if i < j then closingBrace? depth j else none
    else if c = '\x7b' then closingBrace? (depth + 1) (i + 1)
    else if c = '\x7d' then
      if depth = 0 then none
      else if depth = 1 then some (some i)
      else closingBrace? (depth - 1) (i + 1)
    else closingBrace? depth (i + 1)
termination_by bs.length - i
decreasing_by
  all_goals
    have hlt := lt_length_of_byteAt? _h
    omega

/-- The end of a word, inside `depth` brackets of it at `i`. -/
def wordEnd? (depth i : Nat) : Option Nat :=
  match _h : byteAt? bs i with
  | none => some i
  | some c =>
    if c = '"' then
      let j := stringEnd bs (i + 1)
      if i < j then wordEnd? depth j else none
    else if c = '(' ∨ c = '[' then wordEnd? (depth + 1) (i + 1)
    else if c = ')' ∨ c = ']' then wordEnd? (depth - 1) (i + 1)
    else if depth = 0 ∧ (commentAt bs i c ∨ isAsciiSpace c) then some i
    else wordEnd? depth (i + 1)
termination_by bs.length - i
decreasing_by
  all_goals
    have hlt := lt_length_of_byteAt? _h
    omega

/-! ### Runs -/

section

variable {bs}

theorem runEnd_of_none {p : Char → Bool} {i : Nat} (h : byteAt? bs i = none) :
    runEnd bs p i = i := by
  rw [runEnd]
  split
  · rfl
  · next hc => cases hc.symm.trans h

theorem runEnd_of_some {p : Char → Bool} {i : Nat} {c : Char} (h : byteAt? bs i = some c) :
    runEnd bs p i = if p c then runEnd bs p (i + 1) else i := by
  rw [runEnd]
  split
  · next hc => cases hc.symm.trans h
  · next hc =>
    cases hc.symm.trans h
    rfl

end

/-- **A run ends behind the characters of its class**, if the class has all characters above the
ASCII range or none of them. -/
theorem runEnd_bytes {p : Char → Bool} {v : Bool} (hp : ∀ c, isAscii c = false → p c = v)
    (xs ys : List Char) :
    runEnd (bytes (xs ++ ys)) p (byteLength xs) = byteLength (xs ++ ys.takeWhile p) := by
  induction ys generalizing xs with
  | nil => rw [runEnd_of_none (byteAt?_bytes xs []), List.takeWhile_nil, List.append_nil]
  | cons c ys ih =>
    rw [runEnd_of_some (byteAt?_bytes_cons xs ys c), apply_leadByte hp]
    cases hpc : p c with
    | false => rw [List.takeWhile_cons_of_neg (by simp [hpc]), List.append_nil]; rfl
    | true =>
      have hinside : runEnd (bytes (xs ++ c :: ys)) p (byteLength xs + 1) =
          runEnd (bytes (xs ++ c :: ys)) p (byteLength (xs ++ [c])) := by
        refine eq_behind_char ys fun hc i d hd hascii => ?_
        have hpd : p d = true := by rw [hp d hascii, ← hp c hc, hpc]
        rw [runEnd_of_some hd, if_pos hpd]
      rw [if_pos rfl, hinside, List.append_cons, ih, List.takeWhile_cons_of_pos hpc,
        List.append_assoc, List.singleton_append]

theorem lineEnd?_bytes (xs ys : List Char) :
    lineEnd? (bytes (xs ++ ys)) (byteLength xs) =
      some (byteLength (xs ++ ys.takeWhile (· ≠ '\n'))) := by
  have hle : byteLength xs ≤ (bytes (xs ++ ys)).length := by
    rw [length_bytes, byteLength_append]
    omega
  have hclass : ∀ c, isAscii c = false → decide (c ≠ '\n') = true := by
    intro c hc
    rw [decide_eq_true_iff]
    rintro rfl
    cases hc
  rw [lineEnd?, if_pos hle, runEnd_bytes hclass]

/-! ### String literals and comments -/

/-- The rest of a string literal or a comment, and the code behind it. -/
def Mode.span (m : Mode) : List Char → List Char × List Char
  | [] => ([], [])
  | c :: cs =>
    if m.reading c = code then ([], c :: cs)
    else (c :: (((m.reading c).afterWord c).span cs).1, (((m.reading c).afterWord c).span cs).2)

namespace Mode

theorem span_append (m : Mode) (cs : List Char) : (m.span cs).1 ++ (m.span cs).2 = cs := by
  induction cs generalizing m with
  | nil => rfl
  | cons c cs ih =>
    rw [span]
    split
    · rfl
    · rw [List.cons_append, ih]

theorem length_span_le (m : Mode) (cs : List Char) : (m.span cs).2.length ≤ cs.length := by
  have hlength := congrArg List.length (m.span_append cs)
  rw [List.length_append] at hlength
  omega

theorem span_code (cs : List Char) : code.span cs = ([], cs) := by
  cases cs with
  | nil => rfl
  | cons c cs => rw [span, reading_code, if_pos rfl]

/-- Strings and comments are read in the mode that they are in, but for a line break. -/
theorem reading_eq_self {m : Mode} {c : Char} (h : m.reading c ≠ code) : m.reading c = m := by
  rw [reading] at h ⊢
  split
  · next hc => exact absurd (if_pos hc) h
  · rfl

/-- **A comment ends with its line.** -/
theorem span_comment (cs : List Char) :
    comment.span cs = (cs.takeWhile (· ≠ '\n'), cs.dropWhile (· ≠ '\n')) := by
  induction cs with
  | nil => rfl
  | cons c cs ih =>
    by_cases hc : c = '\n'
    · subst hc
      rfl
    · have hread : comment.reading c = comment := by simp [reading, hc]
      rw [span, hread, if_neg (by decide), afterWord, ih, List.takeWhile_cons_of_pos (by simp [hc]),
        List.dropWhile_cons_of_pos (by simp [hc])]

theorem afterCode_of_ne {m : Mode} (h : m ≠ code) (c : Char) (cs : List Char) :
    m.afterCode c cs = m.afterWord c := by
  rw [afterCode]
  exact if_neg fun hc => h hc.1

theorem span_cons_of_ne {m : Mode} {c : Char} (h : m.reading c ≠ code) (cs : List Char) :
    m.span (c :: cs) = (c :: ((m.afterWord c).span cs).1, ((m.afterWord c).span cs).2) := by
  rw [span, if_neg h, reading_eq_self h]

/-- A backslash takes the character behind it along. -/
theorem span_string_backslash (c : Char) (cs : List Char) :
    string.span ('\\' :: c :: cs) = ('\\' :: c :: (string.span cs).1, (string.span cs).2) := by
  have hescape : escape.reading c = escape := by simp [reading]
  have hbackslash : string.afterWord '\\' = escape := rfl
  have hnext : escape.afterWord c = string := rfl
  rw [span_cons_of_ne (by decide), hbackslash, span_cons_of_ne (by rw [hescape]; decide), hnext]

end Mode

/-- What follows a string literal or a comment in a body. -/
theorem bodySpan?_span (m : Mode) (depth : Nat) (cs : List Char) :
    bodySpan? m depth cs =
      (bodySpan? .code depth (m.span cs).2).map fun p => ((m.span cs).1 ++ p.1, p.2) := by
  induction cs generalizing m with
  | nil => rfl
  | cons c cs ih =>
    by_cases hread : m.reading c = .code
    · have hcode : bodySpan? m depth (c :: cs) = bodySpan? .code depth (c :: cs) := by
        rw [bodySpan?, bodySpan?, hread, Mode.reading_code]
      rw [hcode, Mode.span, if_pos hread]
      simp
    · have hself := Mode.reading_eq_self hread
      rw [bodySpan?_cons fun hc => hread hc.1, hself, Mode.afterCode_of_ne (hself ▸ hread),
        if_neg (hself ▸ hread), ih, Mode.span_cons_of_ne hread, Option.map_map]
      rfl

/-- What follows a string literal in a word. -/
theorem wordSpan_span (m : Mode) (depth : Nat) (cs : List Char) :
    wordSpan m depth cs =
      ((m.span cs).1 ++ (wordSpan .code depth (m.span cs).2).1,
        (wordSpan .code depth (m.span cs).2).2) := by
  induction cs generalizing m with
  | nil => rfl
  | cons c cs ih =>
    by_cases hread : m.reading c = .code
    · have hcode : wordSpan m depth (c :: cs) = wordSpan .code depth (c :: cs) := by
        rw [wordSpan, wordSpan, hread, Mode.reading_code]
      rw [hcode, Mode.span, if_pos hread]
      rfl
    · have hself := Mode.reading_eq_self hread
      have hends : endsWord (m.reading c) depth c cs = false := by simp [endsWord, hread]
      rw [wordSpan]
      simp only [hends, Bool.false_eq_true, if_false]
      rw [if_neg hread, hself, ih, Mode.span_cons_of_ne hread]
      rfl

section

variable {bs}

theorem stringEnd_of_none {i : Nat} (h : byteAt? bs i = none) : stringEnd bs i = bs.length := by
  rw [stringEnd]
  split
  · rfl
  · next hc => cases hc.symm.trans h

theorem stringEnd_of_some {i : Nat} {c : Char} (h : byteAt? bs i = some c) :
    stringEnd bs i =
      if c = '\\' then stringEnd bs (i + 2)
      else if c = '"' then i + 1
      else if c = '\n' then i
      else stringEnd bs (i + 1) := by
  rw [stringEnd]
  split
  · next hc => cases hc.symm.trans h
  · next hc =>
    cases hc.symm.trans h
    rfl

end

theorem stringEnd_of_not_isAscii {i : Nat} {c : Char} (h : byteAt? bs i = some c)
    (hc : isAscii c = false) : stringEnd bs i = stringEnd bs (i + 1) := by
  rw [stringEnd_of_some h, if_neg (ne_of_isAscii hc rfl), if_neg (ne_of_isAscii hc rfl),
    if_neg (ne_of_isAscii hc rfl)]

/-- Inside of a string literal, a scan behind the first byte of a character goes on behind it. -/
theorem stringEnd_behind_char (xs ys : List Char) (c : Char) :
    stringEnd (bytes (xs ++ c :: ys)) (byteLength xs + 1) =
      stringEnd (bytes (xs ++ c :: ys)) (byteLength (xs ++ [c])) :=
  eq_behind_char ys fun _ _ _ hd hascii => stringEnd_of_not_isAscii _ hd hascii

/-- A backslash and what it takes along are passed, also if that is a longer character or
nothing. -/
theorem stringEnd_backslash (xs ys : List Char) :
    stringEnd (bytes (xs ++ '\\' :: ys)) (byteLength xs + 2) =
      stringEnd (bytes (xs ++ '\\' :: ys)) (byteLength (xs ++ '\\' :: ys.take 1)) := by
  refine eq_behind_two xs ys rfl (fun i d hd => stringEnd_of_not_isAscii _ hd) fun i hi => ?_
  rw [← length_bytes] at hi ⊢
  rw [stringEnd_of_none (byteAt?_eq_none hi), stringEnd_of_none (byteAt?_eq_none (Nat.le_refl _))]

/-- **A string literal ends behind its quote**, or where its line or the text does. -/
theorem stringEnd_bytes (xs ys : List Char) :
    stringEnd (bytes (xs ++ ys)) (byteLength xs) = byteLength (xs ++ (Mode.string.span ys).1) := by
  -- on the length of what is left, because a backslash passes two characters at once
  induction hn : ys.length using Nat.strongRecOn generalizing xs ys with
  | ind n ih =>
    cases ys with
    | nil =>
      rw [stringEnd_of_none (byteAt?_bytes xs []), length_bytes]
      rfl
    | cons c ys =>
      rw [List.length_cons] at hn
      rw [stringEnd_of_some (byteAt?_bytes_cons xs ys c)]
      simp (disch := decide) only [leadByte_eq_iff]
      by_cases hbackslash : c = '\\'
      · subst hbackslash
        rw [if_pos rfl, stringEnd_backslash]
        cases ys with
        | nil =>
          have hrest := ih 0 (by omega) (xs ++ ['\\']) [] rfl
          have hspan : Mode.string.span ['\\'] = (['\\'], []) := rfl
          rw [hspan]
          simpa [Mode.span] using hrest
        | cons d ys =>
          rw [List.length_cons] at hn
          have hrest := ih ys.length (by omega) (xs ++ ['\\', d]) ys rfl
          rw [Mode.span_string_backslash]
          simpa using hrest
      · by_cases hquote : c = '"'
        · subst hquote
          have hafter : Mode.string.afterWord '"' = .code := rfl
          rw [if_neg hbackslash, if_pos rfl, Mode.span_cons_of_ne (by decide), hafter,
            Mode.span_code, byteLength_append]
          rfl
        · by_cases hbreak : c = '\n'
          · subst hbreak
            rw [if_neg hbackslash, if_neg hquote, if_pos rfl]
            simp [Mode.span, Mode.reading]
          · have hread : Mode.string.reading c = .string := by simp [Mode.reading, hbreak]
            have hafter : Mode.string.afterWord c = .string := by
              simp [Mode.afterWord, hbackslash, hquote]
            have hrest := ih ys.length (by omega) (xs ++ [c]) ys rfl
            rw [if_neg hbackslash, if_neg hquote, if_neg hbreak, stringEnd_behind_char,
              Mode.span_cons_of_ne (by rw [hread]; decide), hafter]
            simpa using hrest

-- the jump behind the backslash ends inside of the two bytes of `é`
example : stringEnd (bytes ['\\', 'é', '"']) 0 = 4 := (stringEnd_bytes [] _).trans (by decide)

/-! ### Bodies -/

/-- Two slashes are found where they stand. -/
theorem commentAt_bytes (xs ys : List Char) (c : Char) :
    commentAt (bytes (xs ++ c :: ys)) (byteLength xs) (leadByte c) = startsComment c ys := by
  have hslash : isAscii '/' = true := rfl
  by_cases hc : c = '/'
  · subst hc
    have hlead : ∀ o : Option Char, (o.map leadByte == some '/') = (o == some '/') := by
      intro o
      rw [Bool.eq_iff_iff, beq_iff_eq, beq_iff_eq]
      cases o with
      | none => simp
      | some d => simp [leadByte_eq_iff hslash]
    rw [commentAt, startsComment, leadByte_of_isAscii hslash, byteLength_add_one xs '/' hslash,
      List.append_cons, byteAt?_bytes, hlead]
  · have hne : leadByte c ≠ '/' := (leadByte_eq_iff hslash).not.2 hc
    rw [commentAt, startsComment, beq_eq_false_iff_ne.2 hne, beq_eq_false_iff_ne.2 hc,
      Bool.false_and, Bool.false_and]

/-- The place where code is read again behind `c`: behind the comment or the string literal that it
begins, or behind the character itself. -/
def codeBehind (xs : List Char) (c : Char) (ys : List Char) : Nat :=
  byteLength (xs ++ c :: ((Mode.code.afterCode c ys).span ys).1)

theorem lt_codeBehind (xs : List Char) (c : Char) (ys : List Char) :
    byteLength xs < codeBehind xs c ys := byteLength_lt_append_cons xs _ c

theorem Mode.afterCode_of_startsComment {c : Char} {ys : List Char}
    (h : startsComment c ys = true) : code.afterCode c ys = comment := by
  obtain ⟨rfl, hhead⟩ := WordPlace.startsComment_eq_true_iff.1 h
  exact if_pos ⟨rfl, rfl, hhead⟩

theorem Mode.afterCode_of_char {c : Char} {ys : List Char} (h : startsComment c ys = false)
    (hquote : c ≠ '"') : code.afterCode c ys = code := by
  rw [afterCode, if_neg, afterWord, if_neg hquote]
  rintro ⟨-, rfl, hhead⟩
  rw [WordPlace.startsComment_eq_true_iff.2 ⟨rfl, hhead⟩] at h
  cases h

theorem lineEnd?_of_startsComment (xs : List Char) {c : Char} {ys : List Char}
    (h : startsComment c ys = true) :
    lineEnd? (bytes (xs ++ c :: ys)) (byteLength xs) = some (codeBehind xs c ys) := by
  have hbreak : c ≠ '\n' := by
    rw [(WordPlace.startsComment_eq_true_iff.1 h).1]
    decide
  rw [lineEnd?_bytes, codeBehind, Mode.afterCode_of_startsComment h, Mode.span_comment,
    List.takeWhile_cons_of_pos (by simp [hbreak])]

theorem stringEnd_of_quote (xs ys : List Char) :
    stringEnd (bytes (xs ++ '"' :: ys)) (byteLength xs + 1) = codeBehind xs '"' ys := by
  have hmode : Mode.code.afterCode '"' ys = .string := rfl
  rw [byteLength_add_one xs '"' rfl, List.append_cons, stringEnd_bytes, codeBehind, hmode,
    List.append_assoc]
  rfl

theorem codeBehind_of_char (xs : List Char) {c : Char} {ys : List Char}
    (h : startsComment c ys = false) (hquote : c ≠ '"') :
    codeBehind xs c ys = byteLength (xs ++ [c]) := by
  rw [codeBehind, Mode.afterCode_of_char h hquote, Mode.span_code]

section

variable {bs}

theorem closingBrace?_of_none {depth i : Nat} (h : byteAt? bs i = none) :
    closingBrace? bs depth i = some none := by
  rw [closingBrace?]
  split
  · rfl
  · next hc => cases hc.symm.trans h

theorem closingBrace?_of_some {depth i : Nat} {c : Char} (h : byteAt? bs i = some c) :
    closingBrace? bs depth i =
      if commentAt bs i c then
        (lineEnd? bs i).bind fun j => if i < j then closingBrace? bs depth j else none
      else if c = '"' then
        if i < stringEnd bs (i + 1) then closingBrace? bs depth (stringEnd bs (i + 1)) else none
      else if c = '\x7b' then closingBrace? bs (depth + 1) (i + 1)
      else if c = '\x7d' then
        if depth = 0 then none
        else if depth = 1 then some (some i)
        else closingBrace? bs (depth - 1) (i + 1)
      else closingBrace? bs depth (i + 1) := by
  rw [closingBrace?]
  split
  · next hc => cases hc.symm.trans h
  · next hc =>
    cases hc.symm.trans h
    rfl

end

theorem commentAt_of_not_isAscii {i : Nat} {c : Char} (hc : isAscii c = false) :
    commentAt bs i c = false := by
  rw [commentAt, beq_eq_false_iff_ne.2 (ne_of_isAscii hc rfl), Bool.false_and]

theorem closingBrace?_of_not_isAscii {depth i : Nat} {c : Char} (h : byteAt? bs i = some c)
    (hc : isAscii c = false) : closingBrace? bs depth i = closingBrace? bs depth (i + 1) := by
  rw [closingBrace?_of_some h, commentAt_of_not_isAscii bs hc, if_neg Bool.false_ne_true,
    if_neg (ne_of_isAscii hc rfl), if_neg (ne_of_isAscii hc rfl), if_neg (ne_of_isAscii hc rfl)]

theorem closingBrace?_behind_char (xs ys : List Char) (c : Char) (depth : Nat) :
    closingBrace? (bytes (xs ++ c :: ys)) depth (byteLength xs + 1) =
      closingBrace? (bytes (xs ++ c :: ys)) depth (byteLength (xs ++ [c])) :=
  eq_behind_char ys fun _ _ _ hd hascii => closingBrace?_of_not_isAscii _ hd hascii

/-- **One step of the search for a closing brace.** -/
theorem closingBrace?_step (xs : List Char) {c : Char} {ys : List Char} {depth : Nat}
    (h : ¬ (c = '\x7d' ∧ depth = 0)) :
    closingBrace? (bytes (xs ++ c :: ys)) (depth + 1) (byteLength xs) =
      closingBrace? (bytes (xs ++ c :: ys)) (braceDepth depth c + 1) (codeBehind xs c ys) := by
  rw [closingBrace?_of_some (byteAt?_bytes_cons xs ys c), commentAt_bytes]
  simp (disch := decide) only [leadByte_eq_iff]
  cases hcomment : startsComment c ys with
  | true =>
    have hdepth : braceDepth depth c = depth := by
      rw [(WordPlace.startsComment_eq_true_iff.1 hcomment).1]
      rfl
    rw [if_pos rfl, lineEnd?_of_startsComment xs hcomment, Option.bind_some,
      if_pos (lt_codeBehind xs c ys), hdepth]
  | false =>
    rw [if_neg Bool.false_ne_true]
    by_cases hquote : c = '"'
    · subst hquote
      rw [if_pos rfl, stringEnd_of_quote, if_pos (lt_codeBehind xs '"' ys)]
      rfl
    · rw [if_neg hquote, codeBehind_of_char xs hcomment hquote]
      simp only [closingBrace?_behind_char]
      by_cases hbrace : c = '\x7b'
      · subst hbrace
        rw [if_pos rfl]
        rfl
      · by_cases hclose : c = '\x7d'
        · obtain ⟨d, rfl⟩ := Nat.exists_eq_succ_of_ne_zero fun hzero => h ⟨hclose, hzero⟩
          subst hclose
          rw [if_neg hbrace, if_pos rfl, if_neg (by omega), if_neg (by omega)]
          rfl
        · rw [if_neg hbrace, if_neg hclose, braceDepth, if_neg hbrace, if_neg hclose]

/-- **The closing brace is found where the body ends**, and the depth is never taken below zero: at
the first brace of the body it is one. -/
theorem closingBrace?_bytes (xs ys : List Char) (depth : Nat) :
    closingBrace? (bytes (xs ++ ys)) (depth + 1) (byteLength xs) =
      some ((bodySpan? .code depth ys).map fun p => byteLength (xs ++ p.1)) := by
  -- the brace in front of the body counts too, so the scan is always one deeper than the body
  induction hn : ys.length using Nat.strongRecOn generalizing xs ys depth with
  | ind n ih =>
    cases ys with
    | nil =>
      rw [closingBrace?_of_none (byteAt?_bytes xs [])]
      rfl
    | cons c ys =>
      rw [List.length_cons] at hn
      by_cases hclose : c = '\x7d' ∧ depth = 0
      · obtain ⟨rfl, rfl⟩ := hclose
        have hcomment : startsComment '\x7d' ys = false := rfl
        rw [closingBrace?_of_some (byteAt?_bytes_cons xs ys _), commentAt_bytes, hcomment,
          leadByte_of_isAscii rfl, bodySpan?]
        simp
      · have hlength := (Mode.code.afterCode c ys).length_span_le ys
        have hrest := ih _ (by omega) (xs ++ c :: ((Mode.code.afterCode c ys).span ys).1)
          ((Mode.code.afterCode c ys).span ys).2 (braceDepth depth c) rfl
        rw [List.append_assoc, List.cons_append, Mode.span_append] at hrest
        rw [closingBrace?_step xs hclose, codeBehind, hrest,
          bodySpan?_cons fun h => hclose h.2, Mode.reading_code, if_pos rfl,
          bodySpan?_span (Mode.code.afterCode c ys), Option.map_map, Option.map_map]
        congr 2
        funext p
        simp

/-! ### Words -/

section

variable {bs}

theorem wordEnd?_of_none {depth i : Nat} (h : byteAt? bs i = none) :
    wordEnd? bs depth i = some i := by
  rw [wordEnd?]
  split
  · rfl
  · next hc => cases hc.symm.trans h

theorem wordEnd?_of_some {depth i : Nat} {c : Char} (h : byteAt? bs i = some c) :
    wordEnd? bs depth i =
      if c = '"' then
        if i < stringEnd bs (i + 1) then wordEnd? bs depth (stringEnd bs (i + 1)) else none
      else if c = '(' ∨ c = '[' then wordEnd? bs (depth + 1) (i + 1)
      else if c = ')' ∨ c = ']' then wordEnd? bs (depth - 1) (i + 1)
      else if depth = 0 ∧ (commentAt bs i c ∨ isAsciiSpace c) then some i
      else wordEnd? bs depth (i + 1) := by
  rw [wordEnd?]
  split
  · next hc => cases hc.symm.trans h
  · next hc =>
    cases hc.symm.trans h
    rfl

end

theorem wordEnd?_behind_char (xs ys : List Char) (c : Char) (depth : Nat) :
    wordEnd? (bytes (xs ++ c :: ys)) depth (byteLength xs + 1) =
      wordEnd? (bytes (xs ++ c :: ys)) depth (byteLength (xs ++ [c])) := by
  refine eq_behind_char ys fun _ i d hd hascii => ?_
  have hopen : ¬ (d = '(' ∨ d = '[') :=
    not_or.2 ⟨ne_of_isAscii hascii rfl, ne_of_isAscii hascii rfl⟩
  have hclose : ¬ (d = ')' ∨ d = ']') :=
    not_or.2 ⟨ne_of_isAscii hascii rfl, ne_of_isAscii hascii rfl⟩
  rw [wordEnd?_of_some hd, if_neg (ne_of_isAscii hascii rfl), if_neg hopen, if_neg hclose,
    commentAt_of_not_isAscii _ hascii, isAsciiSpace_of_not_isAscii hascii, if_neg (by simp)]

theorem endsWord_code_eq_true_iff {depth : Nat} {c : Char} {ys : List Char} :
    endsWord .code depth c ys = true ↔
      depth = 0 ∧ (startsComment c ys = true ∨ isAsciiSpace c = true) := by
  simp [endsWord, or_comm]

/-- Where a word ends, there is neither a quote nor a bracket. -/
theorem ne_of_endsWord {depth : Nat} {c d : Char} {ys : List Char}
    (h : endsWord .code depth c ys = true) (hspace : isAsciiSpace d = false) (hslash : d ≠ '/') :
    c ≠ d := by
  rintro rfl
  rcases (endsWord_code_eq_true_iff.1 h).2 with hcomment | hc
  · exact hslash (WordPlace.startsComment_eq_true_iff.1 hcomment).1
  · rw [hspace] at hc
    cases hc

/-- The byte tells what the search for the end of a word looks for. -/
theorem wordEnd?_bytes_cons (xs ys : List Char) (c : Char) (depth : Nat) :
    wordEnd? (bytes (xs ++ c :: ys)) depth (byteLength xs) =
      if c = '"' then wordEnd? (bytes (xs ++ c :: ys)) depth (codeBehind xs '"' ys)
      else if c = '(' ∨ c = '[' then
        wordEnd? (bytes (xs ++ c :: ys)) (depth + 1) (byteLength (xs ++ [c]))
      else if c = ')' ∨ c = ']' then
        wordEnd? (bytes (xs ++ c :: ys)) (depth - 1) (byteLength (xs ++ [c]))
      else if endsWord .code depth c ys then some (byteLength xs)
      else wordEnd? (bytes (xs ++ c :: ys)) depth (byteLength (xs ++ [c])) := by
  rw [wordEnd?_of_some (byteAt?_bytes_cons xs ys c), commentAt_bytes]
  simp (disch := decide) only [leadByte_eq_iff,
    apply_leadByte fun c => isAsciiSpace_of_not_isAscii, wordEnd?_behind_char,
    endsWord_code_eq_true_iff]
  by_cases hquote : c = '"'
  · subst hquote
    rw [if_pos rfl, if_pos rfl, stringEnd_of_quote, if_pos (lt_codeBehind xs '"' ys)]
  · rw [if_neg hquote, if_neg hquote]

/-- **One step of the search for the end of a word.** -/
theorem wordEnd?_step (xs : List Char) {c : Char} {ys : List Char} {depth : Nat}
    (h : endsWord .code depth c ys = false) :
    wordEnd? (bytes (xs ++ c :: ys)) depth (byteLength xs) =
      wordEnd? (bytes (xs ++ c :: ys)) (groupDepth depth c)
        (byteLength (xs ++ c :: ((Mode.code.afterWord c).span ys).1)) := by
  rw [wordEnd?_bytes_cons, h, if_neg Bool.false_ne_true]
  by_cases hquote : c = '"'
  · subst hquote
    rw [if_pos rfl]
    rfl
  · have hspan : (Mode.code.afterWord c).span ys = ([], ys) := by
      rw [Mode.afterWord, if_neg hquote, Mode.span_code]
    rw [if_neg hquote, hspan]
    by_cases hopen : c = '(' ∨ c = '['
    · rw [if_pos hopen, groupDepth, if_pos hopen]
    · by_cases hclose : c = ')' ∨ c = ']'
      · rw [if_neg hopen, if_pos hclose, groupDepth, if_neg hopen, if_pos hclose]
      · rw [if_neg hopen, if_neg hclose, groupDepth, if_neg hopen, if_neg hclose]

/-- **A word ends where it ends.** -/
theorem wordEnd?_bytes (xs ys : List Char) (depth : Nat) :
    wordEnd? (bytes (xs ++ ys)) depth (byteLength xs) =
      some (byteLength (xs ++ (wordSpan .code depth ys).1)) := by
  induction hn : ys.length using Nat.strongRecOn generalizing xs ys depth with
  | ind n ih =>
    cases ys with
    | nil => rw [wordEnd?_of_none (byteAt?_bytes xs []), wordSpan, List.append_nil]
    | cons c ys =>
      rw [List.length_cons] at hn
      cases hend : endsWord .code depth c ys with
      | true =>
        have hopen : ¬ (c = '(' ∨ c = '[') :=
          not_or.2 ⟨ne_of_endsWord hend rfl (by decide), ne_of_endsWord hend rfl (by decide)⟩
        have hclose : ¬ (c = ')' ∨ c = ']') :=
          not_or.2 ⟨ne_of_endsWord hend rfl (by decide), ne_of_endsWord hend rfl (by decide)⟩
        have hspan : wordSpan .code depth (c :: ys) = ([], c :: ys) := by
          rw [wordSpan, Mode.reading_code]
          exact if_pos hend
        rw [wordEnd?_bytes_cons, if_neg (ne_of_endsWord hend rfl (by decide)), if_neg hopen,
          if_neg hclose, if_pos hend, hspan, List.append_nil]
      | false =>
        have hlength := (Mode.code.afterWord c).length_span_le ys
        have hrest := ih _ (by omega) (xs ++ c :: ((Mode.code.afterWord c).span ys).1)
          ((Mode.code.afterWord c).span ys).2 (groupDepth depth c) rfl
        rw [List.append_assoc, List.cons_append, Mode.span_append] at hrest
        rw [wordEnd?_step xs hend, hrest, wordSpan, Mode.reading_code]
        simp only [hend]
        rw [if_neg Bool.false_ne_true, if_pos trivial, wordSpan_span (Mode.code.afterWord c)]
        simp

end Sieve.Schema
