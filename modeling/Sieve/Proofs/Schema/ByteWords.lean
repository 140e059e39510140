import Sieve.Proofs.Schema.ByteBlocks
import Sieve.Schema.Default

/-!
# Words and arguments, byte by byte

The words of a body are cut out by the places that the scanners for bytes give, and so are the name
of an attribute, its first argument and the inside of a string literal in it.

## Main definitions

* `scanTokens?` — the words and line breaks of a body
* `cutName?`, `cutArgument?`, `cutDefault?` — an attribute's name, first argument and default

## Main results

* `scanTokens?_bytes` — the words are those that are read character by character
* `cutName?_eq`, `cutArgument?_eq`, `cutDefault?_eq` — the same for the parts of attributes
-/

namespace Sieve.Schema

open Sieve.Text

/-! ### Words -/

/-- The words and line breaks of a body from `i` on. -/
def scanTokens? (body : List Char) (i : Nat) : Option (List Token) :=
  match _h : byteAt? (bytes body) i with
  | none => some []
  | some c =>
    if c = '\n' then
      ((⟨i, i + 1⟩ : Span).slice? body).bind fun _ =>
        (scanTokens? body (i + 1)).map (.newline ⟨i, i + 1⟩ :: ·)
    else if isAsciiSpace c then scanTokens? body (i + 1)
    else if commentAt (bytes body) i c then
      (lineEnd? (bytes body) i).bind fun j => if i < j then scanTokens? body j else none
    else
      (wordEnd? (bytes body) 0 i).bind fun j =>
        ((⟨i, j⟩ : Span).slice? body).bind fun word =>
          if i < j then (scanTokens? body j).map (.word ⟨word, ⟨i, j⟩⟩ :: ·) else none
termination_by (bytes body).length - i
decreasing_by
  all_goals
    have hlt := lt_length_of_byteAt? _h
    omega

section

variable {body : List Char}

theorem scanTokens?_of_none {i : Nat} (h : byteAt? (bytes body) i = none) :
    scanTokens? body i = some [] := by
  rw [scanTokens?]
  split
  · rfl
  · next hc => cases hc.symm.trans h

theorem scanTokens?_of_some {i : Nat} {c : Char} (h : byteAt? (bytes body) i = some c) :
    scanTokens? body i =
      if c = '\n' then
        ((⟨i, i + 1⟩ : Span).slice? body).bind fun _ =>
          (scanTokens? body (i + 1)).map (.newline ⟨i, i + 1⟩ :: ·)
      else if isAsciiSpace c then scanTokens? body (i + 1)
      else if commentAt (bytes body) i c then
        (lineEnd? (bytes body) i).bind fun j => if i < j then scanTokens? body j else none
      else
        (wordEnd? (bytes body) 0 i).bind fun j =>
          ((⟨i, j⟩ : Span).slice? body).bind fun word =>
            if i < j then (scanTokens? body j).map (.word ⟨word, ⟨i, j⟩⟩ :: ·) else none := by
  rw [scanTokens?]
  split
  · next hc => cases hc.symm.trans h
  · next hc =>
    cases hc.symm.trans h
    rfl

end

section

variable (xs : List Char) {c : Char} {ys : List Char}

/-- The byte tells what the search for words looks for. -/
theorem scanTokens?_bytes_cons (c : Char) (ys : List Char) :
    scanTokens? (xs ++ c :: ys) (byteLength xs) =
      if c = '\n' then
        ((⟨byteLength xs, byteLength xs + 1⟩ : Span).slice? (xs ++ c :: ys)).bind fun _ =>
          (scanTokens? (xs ++ c :: ys) (byteLength xs + 1)).map
            (.newline ⟨byteLength xs, byteLength xs + 1⟩ :: ·)
      else if isAsciiSpace c then scanTokens? (xs ++ c :: ys) (byteLength xs + 1)
      else if startsComment c ys then
        (lineEnd? (bytes (xs ++ c :: ys)) (byteLength xs)).bind fun j =>
          if byteLength xs < j then scanTokens? (xs ++ c :: ys) j else none
      else
        (wordEnd? (bytes (xs ++ c :: ys)) 0 (byteLength xs)).bind fun j =>
          ((⟨byteLength xs, j⟩ : Span).slice? (xs ++ c :: ys)).bind fun word =>
            if byteLength xs < j then
              (scanTokens? (xs ++ c :: ys) j).map (.word ⟨word, ⟨byteLength xs, j⟩⟩ :: ·)
            else none := by
  rw [scanTokens?_of_some (byteAt?_bytes_cons xs ys c), commentAt_bytes]
  simp (disch := decide) only [leadByte_eq_iff,
    apply_leadByte fun c => isAsciiSpace_of_not_isAscii]

theorem scanTokens?_newline (ys : List Char) :
    scanTokens? (xs ++ '\n' :: ys) (byteLength xs) =
      (scanTokens? (xs ++ '\n' :: ys) (byteLength (xs ++ ['\n']))).map
        (.newline ⟨byteLength xs, byteLength xs + 1⟩ :: ·) := by
  have hcut := slice?_of_eq (show xs ++ '\n' :: ys = xs ++ (['\n'] ++ ys) from rfl)
  rw [← byteLength_add_one xs '\n' rfl] at hcut
  rw [scanTokens?_bytes_cons, if_pos rfl, hcut, Option.bind_some, byteLength_add_one xs '\n' rfl]

theorem scanTokens?_space (hbreak : c ≠ '\n') (hspace : isAsciiSpace c = true) :
    scanTokens? (xs ++ c :: ys) (byteLength xs) =
      scanTokens? (xs ++ c :: ys) (byteLength (xs ++ [c])) := by
  rw [scanTokens?_bytes_cons, if_neg hbreak, if_pos hspace,
    byteLength_add_one xs c (isAscii_of_isAsciiSpace hspace)]

theorem ne_of_isAsciiSpace {d : Char} (hspace : isAsciiSpace c = false)
    (hd : isAsciiSpace d = true) : c ≠ d := by
  rintro rfl
  rw [hspace] at hd
  cases hd

theorem scanTokens?_comment (hspace : isAsciiSpace c = false)
    (hcomment : startsComment c ys = true) :
    scanTokens? (xs ++ c :: ys) (byteLength xs) =
      scanTokens? (xs ++ c :: ys) (byteLength (xs ++ c :: ys.takeWhile (· ≠ '\n'))) := by
  have hend : codeBehind xs c ys = byteLength (xs ++ c :: ys.takeWhile (· ≠ '\n')) := by
    rw [codeBehind, Mode.afterCode_of_startsComment hcomment, Mode.span_comment]
  rw [scanTokens?_bytes_cons, if_neg (ne_of_isAsciiSpace hspace rfl), hspace,
    if_neg Bool.false_ne_true, if_pos hcomment, lineEnd?_of_startsComment xs hcomment,
    Option.bind_some, if_pos (lt_codeBehind xs c ys), hend]

theorem scanTokens?_word (hspace : isAsciiSpace c = false)
    (hcomment : startsComment c ys = false) {word rest : List Char}
    (hword : wordSpan .code 0 (c :: ys) = (c :: word, rest)) :
    scanTokens? (xs ++ c :: ys) (byteLength xs) =
      (scanTokens? (xs ++ c :: ys) (byteLength (xs ++ c :: word))).map
        (.word ⟨c :: word, ⟨byteLength xs, byteLength (xs ++ c :: word)⟩⟩ :: ·) := by
  have happend := wordSpan_append .code 0 (c :: ys)
  rw [hword] at happend
  have hcut := slice?_of_eq (congrArg (xs ++ ·) happend.symm)
  rw [scanTokens?_bytes_cons, if_neg (ne_of_isAsciiSpace hspace rfl), hspace, hcomment,
    if_neg Bool.false_ne_true, if_neg Bool.false_ne_true, wordEnd?_bytes, hword, Option.bind_some,
    hcut, Option.bind_some, if_pos (byteLength_lt_append_cons xs word c)]

end

/-- **The words that are found byte by byte** are those that are found character by character, and
no step goes wrong. -/
theorem scanTokens?_bytes (xs ys : List Char) :
    scanTokens? (xs ++ ys) (byteLength xs) = some (tokensFrom (byteLength xs) ys) := by
  induction hn : ys.length using Nat.strongRecOn generalizing xs ys with
  | ind n ih =>
    cases ys with
    | nil => rw [scanTokens?_of_none (byteAt?_bytes xs []), tokensFrom]
    | cons c ys =>
      rw [List.length_cons] at hn
      rw [tokensFrom]
      by_cases hbreak : c = '\n'
      · subst hbreak
        have hrest := ih _ (by omega) (xs ++ ['\n']) ys rfl
        rw [List.append_assoc, List.singleton_append] at hrest
        rw [scanTokens?_newline, hrest, if_pos rfl, ← byteLength_add_one xs '\n' rfl,
          Option.map_some]
      · rw [if_neg hbreak]
        cases hspace : isAsciiSpace c with
        | true =>
          have hrest := ih _ (by omega) (xs ++ [c]) ys rfl
          rw [List.append_assoc, List.singleton_append] at hrest
          rw [scanTokens?_space xs hbreak hspace, hrest, if_pos rfl, byteLength_append]
          rfl
        | false =>
          rw [if_neg Bool.false_ne_true]
          cases hcomment : startsComment c ys with
          | true =>
            have hlength := (List.dropWhile_sublist (l := ys) (· ≠ '\n')).length_le
            have hrest := ih _ (by omega) (xs ++ c :: ys.takeWhile (· ≠ '\n'))
              (ys.dropWhile (· ≠ '\n')) rfl
            rw [List.append_assoc, List.cons_append, List.takeWhile_append_dropWhile] at hrest
            rw [scanTokens?_comment xs hspace hcomment, hrest, if_pos rfl, byteLength_append,
              byteLength_cons, Nat.add_assoc]
          | false =>
            have hword := wordSpan_code_cons hspace hcomment
            have happend := wordSpan_append .code 0 (c :: ys)
            have hlength := length_wordSpan_le (Mode.code.afterWord c) (groupDepth 0 c) ys
            rw [hword] at happend
            have hrest := ih _ (by omega)
              (xs ++ c :: (wordSpan (Mode.code.afterWord c) (groupDepth 0 c) ys).1)
              (wordSpan (Mode.code.afterWord c) (groupDepth 0 c) ys).2 rfl
            rw [List.append_assoc, happend] at hrest
            rw [scanTokens?_word xs hspace hcomment hword, hrest, if_neg Bool.false_ne_true,
              Option.map_some, byteLength_append]

/-! ### Searches -/

/-- Where the first character of a class begins, in bytes. -/
def findByte? (p : Char → Bool) : List Char → Option Nat
  | [] => none
  | c :: cs => if p c then some 0 else (findByte? p cs).map (c.utf8Size + ·)

/-- Where the last character of a class begins, in bytes. -/
def findLastByte? (p : Char → Bool) : List Char → Option Nat
  | [] => none
  | c :: cs =>
    ((findLastByte? p cs).map (c.utf8Size + ·)).or (if p c then some 0 else none)

section

variable {p : Char → Bool} {cs : List Char}

theorem findByte?_eq_none (h : ∀ c ∈ cs, p c = false) : findByte? p cs = none := by
  induction cs with
  | nil => rfl
  | cons c cs ih =>
    rw [findByte?, ih fun d hd => h d (List.mem_cons_of_mem _ hd), h c List.mem_cons_self]
    rfl

/-- The first character of a class is found where none of the class stands in front. -/
theorem findByte?_append_cons {xs : List Char} {c : Char} (hxs : ∀ d ∈ xs, p d = false)
    (hc : p c = true) (ys : List Char) : findByte? p (xs ++ c :: ys) = some (byteLength xs) := by
  induction xs with
  | nil => rw [List.nil_append, findByte?, if_pos hc, byteLength_nil]
  | cons d xs ih =>
    rw [List.cons_append, findByte?, ih fun e he => hxs e (List.mem_cons_of_mem _ he),
      hxs d List.mem_cons_self]
    rfl

/-- The characters in front of the first of a class, or all. -/
theorem getD_findByte? : (findByte? p cs).getD (byteLength cs) =
    byteLength (cs.takeWhile fun c => !p c) := by
  induction cs with
  | nil => rfl
  | cons c cs ih =>
    rw [findByte?, List.takeWhile_cons]
    cases p c with
    | true => rfl
    | false =>
      cases hfound : findByte? p cs with
      | none =>
        rw [hfound, Option.getD_none] at ih
        simp [ih]
      | some i =>
        rw [hfound, Option.getD_some] at ih
        simp [ih]

theorem findLastByte?_eq_none (h : ∀ c ∈ cs, p c = false) : findLastByte? p cs = none := by
  induction cs with
  | nil => rfl
  | cons c cs ih =>
    rw [findLastByte?, ih fun d hd => h d (List.mem_cons_of_mem _ hd), h c List.mem_cons_self]
    rfl

theorem findLastByte?_append_of_forall (h : ∀ c ∈ cs, p c = false) (xs : List Char) :
    findLastByte? p (xs ++ cs) = findLastByte? p xs := by
  induction xs with
  | nil => rw [List.nil_append, findLastByte?_eq_none h, findLastByte?]
  | cons d xs ih => rw [List.cons_append, findLastByte?, findLastByte?, ih]

theorem lt_byteLength_of_findLastByte? {i : Nat} (h : findLastByte? p cs = some i) :
    i < byteLength cs := by
  induction cs generalizing i with
  | nil => cases h
  | cons c cs ih =>
    have hsize := c.utf8Size_pos
    rw [findLastByte?] at h
    rw [byteLength_cons]
    cases hlast : findLastByte? p cs with
    | some j =>
      rw [hlast] at h
      obtain rfl : c.utf8Size + j = i := Option.some.inj h
      exact Nat.add_lt_add_left (ih hlast) _
    | none =>
      rw [hlast, Option.map_none, Option.none_or] at h
      split at h
      · cases h
        omega
      · cases h

/-- The last character of a class is found where none of the class follows. -/
theorem findLastByte?_append_cons (xs : List Char) {c : Char} {ys : List Char} (hc : p c = true)
    (hys : ∀ d ∈ ys, p d = false) : findLastByte? p (xs ++ c :: ys) = some (byteLength xs) := by
  induction xs with
  | nil =>
    rw [List.nil_append, findLastByte?, findLastByte?_eq_none hys, hc]
    rfl
  | cons d xs ih =>
    rw [List.cons_append, findLastByte?, ih]
    rfl

end

/-! ### Names of attributes -/

/-- The name at the start of an attribute word, cut out up to the first character that does not
belong to it. -/
def cutName? (word : String) : Option String :=
  let name := word.toList.dropWhile (· == '@')
  let stop := (findByte? (fun c => !isNameChar c) name).getD (byteLength name)
  ((⟨0, stop⟩ : Span).slice? name).map String.ofList

/-- A cut at the front of a text. -/
theorem slice?_of_isPrefix {xs cs : List Char} (h : xs <+: cs) :
    (⟨0, byteLength xs⟩ : Span).slice? cs = some xs := by
  obtain ⟨ys, rfl⟩ := h
  exact slice?_eq_some_iff.2 ⟨[], ys, rfl, rfl⟩

/-- **A name is cut out as it is read.** -/
theorem cutName?_eq (word : String) : cutName? word = some (rawName word) := by
  have hclass : (fun c => !!isNameChar c) = isNameChar := funext fun c => Bool.not_not _
  simp only [cutName?, getD_findByte?, hclass, slice?_of_isPrefix (List.takeWhile_prefix _),
    Option.map_some]
  rfl

/-! ### The end of an argument -/

/-- The comma that ends the first argument of a text, from `i` on, inside `depth` brackets and, if
`quoted`, inside of a string literal. -/
def commaAt? (bs : List UInt8) (depth : Nat) (quoted : Bool) (i : Nat) : Option Nat :=
  match _h : byteAt? bs i with
  | none => none
  | some c =>
    if quoted ∧ c = '\\' then commaAt? bs depth quoted (i + 2)
    else if c = '"' then commaAt? bs depth (!quoted) (i + 1)
    else if ¬ quoted ∧ (c = '(' ∨ c = '[') then commaAt? bs (depth + 1) quoted (i + 1)
    else if ¬ quoted ∧ (c = ')' ∨ c = ']') then commaAt? bs (depth - 1) quoted (i + 1)
    else if ¬ quoted ∧ c = ',' ∧ depth = 0 then some i
    else commaAt? bs depth quoted (i + 1)
termination_by bs.length - i
decreasing_by
  all_goals
    have hlt := lt_length_of_byteAt? _h
    omega

section

variable {bs : List UInt8}

theorem commaAt?_of_none {depth i : Nat} {quoted : Bool} (h : byteAt? bs i = none) :
    commaAt? bs depth quoted i = none := by
  rw [commaAt?]
  split
  · rfl
  · next hc => cases hc.symm.trans h

theorem commaAt?_of_some {depth i : Nat} {quoted : Bool} {c : Char} (h : byteAt? bs i = some c) :
    commaAt? bs depth quoted i =
      if quoted ∧ c = '\\' then commaAt? bs depth quoted (i + 2)
      else if c = '"' then commaAt? bs depth (!quoted) (i + 1)
      else if ¬ quoted ∧ (c = '(' ∨ c = '[') then commaAt? bs (depth + 1) quoted (i + 1)
      else if ¬ quoted ∧ (c = ')' ∨ c = ']') then commaAt? bs (depth - 1) quoted (i + 1)
      else if ¬ quoted ∧ c = ',' ∧ depth = 0 then some i
      else commaAt? bs depth quoted (i + 1) := by
  rw [commaAt?]
  split
  · next hc => cases hc.symm.trans h
  · next hc =>
    cases hc.symm.trans h
    rfl

theorem commaAt?_of_not_isAscii {i depth : Nat} {c : Char} {quoted : Bool}
    (h : byteAt? bs i = some c) (hc : isAscii c = false) :
    commaAt? bs depth quoted i = commaAt? bs depth quoted (i + 1) := by
  have hne : ∀ d, isAscii d = true → c ≠ d := fun d hd => ne_of_isAscii hc hd
  rw [commaAt?_of_some h, if_neg fun h => hne _ rfl h.2, if_neg (hne _ rfl),
    if_neg fun h => h.2.elim (hne _ rfl) (hne _ rfl),
    if_neg fun h => h.2.elim (hne _ rfl) (hne _ rfl), if_neg fun h => hne _ rfl h.2.1]

end

theorem commaAt?_behind_char (xs ys : List Char) (c : Char) (depth : Nat) (quoted : Bool) :
    commaAt? (bytes (xs ++ c :: ys)) depth quoted (byteLength xs + 1) =
      commaAt? (bytes (xs ++ c :: ys)) depth quoted (byteLength (xs ++ [c])) :=
  eq_behind_char ys fun _ _ _ => commaAt?_of_not_isAscii

/-- A backslash in a string literal takes what stands behind it along. -/
theorem commaAt?_backslash (xs ys : List Char) (depth : Nat) :
    commaAt? (bytes (xs ++ '\\' :: ys)) depth true (byteLength xs) =
      commaAt? (bytes (xs ++ '\\' :: ys)) depth true (byteLength (xs ++ '\\' :: ys.take 1)) := by
  rw [commaAt?_of_some (byteAt?_bytes_cons xs ys _), leadByte_of_isAscii rfl, if_pos ⟨rfl, rfl⟩]
  refine eq_behind_two xs ys rfl (fun i d => commaAt?_of_not_isAscii) fun i hi => ?_
  rw [← length_bytes] at hi ⊢
  rw [commaAt?_of_none (byteAt?_eq_none hi), commaAt?_of_none (byteAt?_eq_none (Nat.le_refl _))]

/-- The byte tells what the search for the comma looks for. -/
theorem commaAt?_bytes_cons (xs ys : List Char) (c : Char) (depth : Nat) (quoted : Bool)
    (h : ¬ (quoted ∧ c = '\\')) :
    commaAt? (bytes (xs ++ c :: ys)) depth quoted (byteLength xs) =
      if quoted = false ∧ c = ',' ∧ depth = 0 then some (byteLength xs)
      else
        commaAt? (bytes (xs ++ c :: ys)) (if quoted then depth else groupDepth depth c)
          (if c = '"' then !quoted else quoted) (byteLength (xs ++ [c])) := by
  rw [commaAt?_of_some (byteAt?_bytes_cons xs ys c)]
  simp (disch := decide) only [leadByte_eq_iff, commaAt?_behind_char]
  rw [if_neg h]
  cases quoted with
  | true => by_cases hquote : c = '"' <;> simp [hquote]
  | false =>
    by_cases hquote : c = '"'
    · subst hquote
      simp [groupDepth]
    · by_cases hopen : c = '(' ∨ c = '['
      · have hcomma : c ≠ ',' := by rintro rfl; simp at hopen
        simp [groupDepth, hquote, hopen, hcomma]
      · by_cases hclose : c = ')' ∨ c = ']'
        · have hcomma : c ≠ ',' := by rintro rfl; simp at hclose
          simp [groupDepth, hquote, hopen, hclose, hcomma]
        · simp [groupDepth, hquote, hopen, hclose]

/-- The mode inside of a string literal, or outside of all. -/
def Mode.ofQuoted (quoted : Bool) : Mode := if quoted then string else code

theorem untilComma_cons (cs : List Char) {c : Char} {depth : Nat} {quoted : Bool}
    (h : ¬ (quoted ∧ c = '\\')) :
    untilComma (Mode.ofQuoted quoted) depth (c :: cs) =
      if quoted = false ∧ c = ',' ∧ depth = 0 then []
      else
        c :: untilComma (Mode.ofQuoted (if c = '"' then !quoted else quoted))
          (if quoted then depth else groupDepth depth c) cs := by
  cases quoted with
  | true =>
    have hc : c ≠ '\\' := fun hc => h ⟨rfl, hc⟩
    by_cases hquote : c = '"' <;> simp [untilComma, Mode.ofQuoted, Mode.afterWord, hquote, hc]
  | false =>
    by_cases hquote : c = '"' <;> simp [untilComma, Mode.ofQuoted, Mode.afterWord, hquote]

/-- **The first argument ends at the comma that ends it**, or with the text. -/
theorem commaAt?_bytes (xs ys : List Char) (depth : Nat) (quoted : Bool) :
    (commaAt? (bytes (xs ++ ys)) depth quoted (byteLength xs)).getD (byteLength (xs ++ ys)) =
      byteLength (xs ++ untilComma (Mode.ofQuoted quoted) depth ys) := by
  -- on the length of what is left, because a backslash passes two characters at once
  induction hn : ys.length using Nat.strongRecOn generalizing xs ys depth quoted with
  | ind n ih =>
    cases ys with
    | nil => rw [commaAt?_of_none (byteAt?_bytes xs []), untilComma, Option.getD_none]
    | cons c ys =>
      rw [List.length_cons] at hn
      by_cases hbackslash : quoted ∧ c = '\\'
      · obtain ⟨rfl, rfl⟩ := hbackslash
        rw [commaAt?_backslash]
        cases ys with
        | nil =>
          have hrest := ih 0 (by omega) (xs ++ ['\\']) [] depth true rfl
          simpa [untilComma, Mode.ofQuoted] using hrest
        | cons d ys =>
          rw [List.length_cons] at hn
          have hrest := ih ys.length (by omega) (xs ++ ['\\', d]) ys depth true rfl
          simpa [untilComma, Mode.ofQuoted, Mode.afterWord] using hrest
      · have hrest := ih _ (by omega) (xs ++ [c]) ys (if quoted then depth else groupDepth depth c)
          (if c = '"' then !quoted else quoted) rfl
        rw [List.append_assoc, List.append_assoc, List.singleton_append,
          List.singleton_append] at hrest
        rw [commaAt?_bytes_cons xs ys c depth quoted hbackslash, untilComma_cons ys hbackslash]
        split
        · rw [Option.getD_some, List.append_nil]
        · exact hrest

theorem untilComma_isPrefix (m : Mode) (depth : Nat) (cs : List Char) :
    untilComma m depth cs <+: cs := by
  induction cs generalizing m depth with
  | nil => exact List.nil_prefix
  | cons c cs ih =>
    rw [untilComma]
    split
    · split
      · exact List.nil_prefix
      · exact List.cons_prefix_cons.2 ⟨rfl, ih _ _⟩
    · exact List.cons_prefix_cons.2 ⟨rfl, ih _ _⟩

/-! ### Arguments -/

/-- The text between the first opening and the last closing parenthesis, cut out where they stand;
none inside of the result if they are missing or the wrong way round. -/
def cutInside? (word : List Char) : Option (Option (List Char)) :=
  match findByte? (· == '(') word, findLastByte? (· == ')') word with
  | some opening, some closing =>
    if closing ≤ opening then some none
    else ((⟨opening + 1, closing⟩ : Span).slice? word).map some
  | _, _ => some none

/-- The text of the first argument of an attribute word, cut out up to its comma; none inside of the
result if there are no arguments. -/
def cutArgument? (word : String) : Option (Option String) :=
  (cutInside? word.toList).bind fun
    | none => some none
    | some inside =>
      let stop := (commaAt? (bytes inside) 0 false 0).getD (byteLength inside)
      ((⟨0, stop⟩ : Span).slice? inside).map fun text => some (String.ofList (trimChars text))

/-- **What stands between the parentheses is cut out as it is read.** -/
theorem cutInside?_eq (cs : List Char) : cutInside? cs = some (argumentText? cs) := by
  by_cases hopen : '(' ∈ cs
  · obtain ⟨front, inside, rfl, hfront⟩ := List.eq_append_cons_of_mem hopen
    have hopening : findByte? (· == '(') (front ++ '(' :: inside) = some (byteLength front) :=
      findByte?_append_cons (beq_eq_false_of_notMem hfront) rfl inside
    rw [cutInside?, hopening, argumentText?, dropWhile_ne_append_cons hfront]
    by_cases hclose : ')' ∈ inside
    · obtain ⟨kept, behind, rfl, hbehind⟩ := exists_last_of_mem hclose
      have hsource : front ++ '(' :: (kept ++ ')' :: behind) =
          front ++ ['('] ++ (kept ++ ')' :: behind) := by simp
      have hclosing : findLastByte? (· == ')') (front ++ '(' :: (kept ++ ')' :: behind)) =
          some (byteLength (front ++ ['('] ++ kept)) := by
        rw [hsource, ← List.append_assoc]
        exact findLastByte?_append_cons _ rfl (beq_eq_false_of_notMem hbehind)
      have hreverse : (kept ++ ')' :: behind).reverse = behind.reverse ++ ')' :: kept.reverse := by
        rw [List.reverse_append, List.reverse_cons, List.append_assoc, List.singleton_append]
      have hlt : byteLength front < byteLength (front ++ ['('] ++ kept) := by
        rw [byteLength_append, ← byteLength_add_one front '(' rfl]
        omega
      have hlast : ')' ∉ behind.reverse := by rwa [List.mem_reverse]
      rw [hclosing]
      simp only [hreverse, dropWhile_ne_append_cons hlast, if_neg (Nat.not_le.2 hlt),
        byteLength_add_one front '(' rfl, slice?_of_eq hsource,
        Option.map_some, List.reverse_reverse]
    · have hnone : ')' ∉ '(' :: inside := by simpa using hclose
      have hlast : ')' ∉ inside.reverse := by rwa [List.mem_reverse]
      rw [findLastByte?_append_of_forall (beq_eq_false_of_notMem hnone)]
      simp only [dropWhile_ne_of_notMem hlast]
      cases hclosing : findLastByte? (· == ')') front with
      | none => rfl
      | some closing => exact if_pos (lt_byteLength_of_findLastByte? hclosing).le
  · have hopening : findByte? (· == '(') cs = none :=
      findByte?_eq_none (beq_eq_false_of_notMem hopen)
    rw [cutInside?, hopening, argumentText?, dropWhile_ne_of_notMem hopen]

/-- **The first argument is cut out as it is read.** -/
theorem cutArgument?_eq (word : String) : cutArgument? word = some (firstArgument? word) := by
  rw [cutArgument?, cutInside?_eq, Option.bind_some, firstArgument?]
  cases argumentText? word.toList with
  | none => rfl
  | some inside =>
    have hcut := slice?_of_isPrefix (untilComma_isPrefix .code 0 inside)
    have hstop : (commaAt? (bytes inside) 0 false 0).getD (byteLength inside) =
        byteLength (untilComma .code 0 inside) := commaAt?_bytes [] inside 0 false
    simp only [hstop]
    exact congrArg (Option.map _) hcut

/-! ### Defaults -/

/-- The inside of a text in double quotes, cut out one byte from both ends; none inside of the
result if it is no such text. -/
def cutQuoted? (cs : List Char) : Option (Option (List Char)) :=
  if 2 ≤ byteLength cs ∧ cs.head? = some '"' ∧ cs.getLast? = some '"' then
    ((⟨1, byteLength cs - 1⟩ : Span).slice? cs).map some
  else some none

/-- The default that the text of an argument spells, with the inside of a string literal cut out. -/
def cutDefault? (text : String) : Option (Option Default) :=
  (cutQuoted? (trimChars text.toList)).map fun
    | some inside => some (.string (String.ofList (Attribute.unescape inside)))
    | none => Default.ofText? text

/-- **The inside of a string literal is cut out as it is read.** -/
theorem cutQuoted?_eq (cs : List Char) : cutQuoted? cs = some (Default.insideQuotes? cs) := by
  have hquote : ∀ xs, byteLength xs + 1 = byteLength (xs ++ ['"']) :=
    fun xs => byteLength_add_one xs _ rfl
  cases cs with
  | nil => rfl
  | cons c cs =>
    by_cases hc : c = '"'
    · subst hc
      rw [Default.insideQuotes?]
      by_cases hlast : cs.getLast? = some '"'
      · obtain ⟨inside, rfl⟩ := List.getLast?_eq_some_iff.1 hlast
        have hlength :
            byteLength ('"' :: (inside ++ ['"'])) - 1 = byteLength (['"'] ++ inside) := by
          rw [← List.cons_append, ← hquote]
          rfl
        have hcut : (⟨1, byteLength ('"' :: (inside ++ ['"'])) - 1⟩ : Span).slice?
            ('"' :: (inside ++ ['"'])) = some inside := by
          rw [hlength]
          exact slice?_eq_some_iff.2 ⟨['"'], ['"'], rfl, rfl⟩
        have htwo : 2 ≤ byteLength ('"' :: (inside ++ ['"'])) := by
          rw [byteLength_cons, ← hquote, show '"'.utf8Size = 1 from rfl]
          omega
        have hend : ('"' :: (inside ++ ['"'])).getLast? = some '"' :=
          List.getLast?_concat (l := '"' :: inside)
        rw [if_pos hlast, cutQuoted?, if_pos ⟨htwo, rfl, hend⟩, hcut,
          List.dropLast_concat, Option.map_some]
      · rw [if_neg hlast, cutQuoted?, if_neg]
        rintro ⟨htwo, -, hend⟩
        cases cs with
        | nil => exact absurd htwo (by decide)
        | cons d ds => exact hlast (by rwa [List.getLast?_cons_cons] at hend)
    · have hnone : Default.insideQuotes? (c :: cs) = none := by
        rw [Default.insideQuotes?]
        intro ds hds
        exact hc (List.cons.inj hds).1
      rw [hnone, cutQuoted?, if_neg]
      exact fun h => hc (Option.some.inj h.2.1)

/-- **A default is cut out as it is read.** -/
theorem cutDefault?_eq (text : String) : cutDefault? text = some (Default.ofText? text) := by
  rw [cutDefault?, cutQuoted?_eq, Option.map_some]
  cases hquoted : Default.insideQuotes? (trimChars text.toList) with
  | none => rfl
  | some inside =>
    rw [Default.ofText?]
    simp only [hquoted]

end Sieve.Schema
