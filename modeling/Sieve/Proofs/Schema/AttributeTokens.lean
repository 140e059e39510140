import Sieve.Proofs.Decimal.Numerals
import Sieve.Proofs.Schema.AttributeWords
import Sieve.Proofs.Schema.BlockText

/-!
# Attribute tokens as they are written

What tokens a text has, told from both sides: the first token of a text was written at its front,
behind some blanks, and a token that is written is read back, whatever blanks stand in front of it.
Only a word or a number could run on into what stands behind it, so a token needs an end there.

An attribute as a whole is its name, and a text of tokens behind it.

## Main definitions

* `Attribute.Inside`, `Attribute.Escapes` — the inside of a string literal, and of one character
* `Attribute.Token.Spelled` — the ways to write a token
* `Attribute.EndsToken` — a text that no word or number runs on into
* `Attribute.Spells` — the ways to write an attribute

## Main results

* `Attribute.literalSpan?_eq_some_iff` — a literal ends at the first quote that is not escaped
* `Attribute.exists_spelled_of_tokens?` — tokens that are read were written
* `Attribute.tokens?_append_of_spelled` — a token that is written is read
* `Attribute.ofChars?_eq_some_iff` — an attribute is read off the texts that spell it
* `Attribute.exists_of_parse?` — an attribute that is read was written as its name and its tokens
-/

namespace Sieve.Schema.Attribute

open Sieve.Text Sieve.Decimal

/-! ### String literals -/

/-- The inside of a string literal: no quote that is not escaped, and no backslash at the end. -/
inductive Inside : List Char → Prop where
  | nil : Inside []
  | escape (c : Char) {cs : List Char} : Inside cs → Inside ('\\' :: c :: cs)
  | plain {c : Char} {cs : List Char} : c ≠ '"' → c ≠ '\\' → Inside cs → Inside (c :: cs)

theorem Inside.literalSpan?_append {inside : List Char} (h : Inside inside) (rest : List Char) :
    literalSpan? (inside ++ '"' :: rest) = some (inside, rest) := by
  induction h with
  | nil => rfl
  | escape c _ ih =>
    rw [List.cons_append, List.cons_append, literalSpan?, ih]
    rfl
  | plain hquote hback _ ih =>
    rw [List.cons_append, literalSpan?.eq_4, ih]
    · rfl
    · exact hquote
    · intro _ _ hc
      exact absurd hc hback

/-- **A string literal ends at the first quote that is not escaped.** -/
theorem literalSpan?_eq_some_iff {cs inside rest : List Char} :
    literalSpan? cs = some (inside, rest) ↔ Inside inside ∧ cs = inside ++ '"' :: rest := by
  constructor
  · intro h
    induction cs using literalSpan?.induct generalizing inside with
    | case1 => simp [literalSpan?] at h
    | case2 cs =>
      obtain ⟨rfl, rfl⟩ : [] = inside ∧ cs = rest := by simpa [literalSpan?] using h
      exact ⟨.nil, rfl⟩
    | case3 c cs ih =>
      rw [literalSpan?, Option.map_eq_some_iff] at h
      obtain ⟨⟨inside', rest'⟩, hspan, heq⟩ := h
      cases heq
      obtain ⟨hinside, rfl⟩ := ih hspan
      exact ⟨.escape c hinside, rfl⟩
    | case4 c cs hquote hback ih =>
      rw [literalSpan?.eq_4 _ _ hquote hback, Option.map_eq_some_iff] at h
      obtain ⟨⟨inside', rest'⟩, hspan, heq⟩ := h
      cases heq
      obtain ⟨hinside, rfl⟩ := ih hspan
      have hne : c ≠ '\\' := by
        rintro rfl
        cases inside' with
        | nil => exact hback _ _ rfl rfl
        | cons d ds => exact hback _ _ rfl rfl
      exact ⟨.plain hquote hne hinside, rfl⟩
  · rintro ⟨hinside, rfl⟩
    exact hinside.literalSpan?_append rest

/-- The ways to write one character inside of a string literal. -/
inductive Escapes : Char → List Char → Prop where
  | plain {c : Char} : c ≠ '"' → c ≠ '\\' → Escapes c [c]
  | escaped {c d : Char} : (if d = 'n' then '\n' else if d = 't' then '\t' else d) = c →
      Escapes c ['\\', d]

section

variable {write : Char → List Char}

/-- What is written character by character is the inside of a string literal. -/
theorem inside_flatMap (h : ∀ c, Escapes c (write c)) (cs : List Char) :
    Inside (cs.flatMap write) := by
  induction cs with
  | nil => exact .nil
  | cons c cs ih =>
    rw [List.flatMap_cons]
    have hc := h c
    generalize write c = piece at hc
    cases hc with
    | plain hquote hback => exact .plain hquote hback ih
    | escaped _ => exact .escape _ ih

/-- **What is written character by character reads back.** -/
theorem unescape_flatMap (h : ∀ c, Escapes c (write c)) (cs : List Char) :
    unescape (cs.flatMap write) = cs := by
  induction cs with
  | nil => rfl
  | cons c cs ih =>
    rw [List.flatMap_cons]
    have hc := h c
    generalize write c = piece at hc
    cases hc with
    | plain hquote hback =>
      rw [List.singleton_append, unescape.eq_4, ih]
      · rintro rfl
        exact absurd rfl hback
      · rintro _ _ rfl
        exact absurd rfl hback
    | escaped hd => rw [List.cons_append, List.singleton_append, unescape, hd, ih]

end

/-! ### Numbers -/

/-- What continues a number is digits and perhaps a fraction. -/
theorem exists_fraction_digitSpan (cs : List Char) :
    ∃ fraction : List Char, (∀ c ∈ fraction, isAsciiDigit c = true) ∧
      (digitSpan cs).1 =
        cs.takeWhile isAsciiDigit ++ if fraction = [] then [] else '.' :: fraction := by
  have hdigits : ∀ {xs : List Char}, ∀ c ∈ xs.takeWhile isAsciiDigit, isAsciiDigit c = true :=
    fun c hc => List.mem_takeWhile_imp hc
  rw [digitSpan]
  split
  · next d r hr =>
    split
    · next hd =>
      exact ⟨d :: r.takeWhile isAsciiDigit, List.forall_mem_cons.2 ⟨hd, hdigits⟩, by simp⟩
    · exact ⟨[], by simp, by simp⟩
  · exact ⟨[], by simp, by simp⟩

/-- **What is read as a number is a numeral.** -/
theorem exists_numeral_of_startsNumber {c : Char} {cs : List Char} (h : startsNumber c cs = true) :
    ∃ n : Numeral, c :: (digitSpan cs).1 = n.text := by
  obtain ⟨fraction, hfraction, hspan⟩ := exists_fraction_digitSpan cs
  rw [startsNumber, Bool.or_eq_true, Bool.and_eq_true] at h
  rcases h with hdigit | ⟨hminus, hhead⟩
  · refine ⟨⟨false, c :: cs.takeWhile isAsciiDigit, fraction, List.cons_ne_nil _ _,
      List.forall_mem_cons.2 ⟨hdigit, fun d hd => List.mem_takeWhile_imp hd⟩, hfraction⟩, ?_⟩
    rw [hspan]
    rfl
  · obtain rfl : c = '-' := by simpa using hminus
    obtain ⟨d, ds, rfl, hd⟩ : ∃ d ds, cs = d :: ds ∧ isAsciiDigit d = true := by
      cases cs with
      | nil => cases hhead
      | cons d ds => exact ⟨d, ds, rfl, hhead⟩
    refine ⟨⟨true, (d :: ds).takeWhile isAsciiDigit, fraction, ?_,
      fun e he => List.mem_takeWhile_imp he, hfraction⟩, ?_⟩
    · rw [List.takeWhile_cons_of_pos hd]
      exact List.cons_ne_nil _ _
    · rw [hspan]
      rfl

/-- The text ends words and numbers in front of it: it begins neither like the rest of a word nor
like a fraction. -/
def EndsToken (rest : List Char) : Prop := ∀ c ∈ rest.head?, isIdentRest c = false ∧ c ≠ '.'

/-- Digits and a fraction are read up to their end. -/
theorem digitSpan_append_of_endsToken (n : Numeral) {digits : List Char}
    (hdigits : ∀ c ∈ digits, isAsciiDigit c = true) {rest : List Char} (hrest : EndsToken rest) :
    digitSpan (digits ++ (n.fractionText ++ rest)) = (digits ++ n.fractionText, rest) := by
  have hend : ∀ c ∈ rest.head?, isAsciiDigit c = false := fun c hc =>
    Bool.eq_false_iff.2 fun hdigit => by
      have hident := isIdentRest_of_isAsciiDigit hdigit
      rw [(hrest c hc).1] at hident
      cases hident
  have hfraction := n.isAsciiDigit_fraction
  rw [Numeral.fractionText]
  cases hn : n.fraction with
  | nil =>
    rw [if_pos rfl, List.nil_append, List.append_nil, digitSpan,
      takeWhile_append_of_head? hdigits hend, dropWhile_append_of_head? hdigits hend]
    split
    · next d r => exact absurd rfl (hrest '.' rfl).2
    · rfl
  | cons d ds =>
    rw [hn] at hfraction
    obtain ⟨hd, hds⟩ := List.forall_mem_cons.1 hfraction
    have hpoint : ∀ c ∈ ('.' :: d :: (ds ++ rest)).head?, isAsciiDigit c = false := by
      rintro c ⟨⟩
      decide
    rw [if_neg (List.cons_ne_nil d ds), List.cons_append, List.cons_append, digitSpan,
      takeWhile_append_of_head? hdigits hpoint, dropWhile_append_of_head? hdigits hpoint]
    simp only [hd, if_true]
    rw [takeWhile_append_of_head? hds hend, dropWhile_append_of_head? hds hend]

/-! ### The first token -/

/-- The ways to write a token. -/
inductive Token.Spelled : Token → List Char → Prop where
  | openParen : Spelled .openParen ['(']
  | closeParen : Spelled .closeParen [')']
  | openBracket : Spelled .openBracket ['[']
  | closeBracket : Spelled .closeBracket [']']
  | comma : Spelled .comma [',']
  | colon : Spelled .colon [':']
  | string {inside : List Char} : Inside inside →
      Spelled (.literal (.string (String.ofList (unescape inside)))) ('"' :: (inside ++ ['"']))
  | number (n : Numeral) : Spelled (.literal (numberValue n.text)) n.text
  | word {name : List Char} : isIdent name = true → Spelled (.word (String.ofList name)) name

/-- The first token was written at the front of the text. -/
theorem exists_spelled_of_next? {c : Char} {cs : List Char} {t : Token} {rest : Rest cs}
    (h : next? c cs = some (t, rest)) : ∃ piece, t.Spelled piece ∧ c :: cs = piece ++ rest.1 := by
  rw [next?] at h
  split_ifs at h with h₁ h₂ h₃ h₄ h₅ h₆ hquote hnumber hident
  · obtain rfl : c = '(' := by simpa using h₁
    cases h
    exact ⟨_, .openParen, rfl⟩
  · obtain rfl : c = ')' := by simpa using h₂
    cases h
    exact ⟨_, .closeParen, rfl⟩
  · obtain rfl : c = '[' := by simpa using h₃
    cases h
    exact ⟨_, .openBracket, rfl⟩
  · obtain rfl : c = ']' := by simpa using h₄
    cases h
    exact ⟨_, .closeBracket, rfl⟩
  · obtain rfl : c = ',' := by simpa using h₅
    cases h
    exact ⟨_, .comma, rfl⟩
  · obtain rfl : c = ':' := by simpa using h₆
    cases h
    exact ⟨_, .colon, rfl⟩
  · obtain rfl : c = '"' := by simpa using hquote
    split at h
    · cases h
    · next inside after hspan =>
      cases h
      obtain ⟨hinside, rfl⟩ := literalSpan?_eq_some_iff.1 hspan
      exact ⟨_, .string hinside, by simp [Rest.ofLt]⟩
  · cases h
    obtain ⟨n, hn⟩ := exists_numeral_of_startsNumber hnumber
    refine ⟨n.text, ?_, ?_⟩
    · rw [hn]
      exact .number n
    · rw [← hn, List.cons_append, digitSpan_append]
  · cases h
    refine ⟨c :: cs.takeWhile isIdentRest, .word ?_, ?_⟩
    · rw [isIdent, hident, Bool.true_and, List.all_eq_true]
      exact fun d hd => List.mem_takeWhile_imp hd
    · rw [List.cons_append]
      exact congrArg (c :: ·) List.takeWhile_append_dropWhile.symm

/-- **Tokens that are read were written**: the first one at the front of the text, behind some
blanks, and the others behind it. -/
theorem exists_spelled_of_tokens? {cs : List Char} {t : Token} {ts : List Token}
    (h : tokens? cs = some (t :: ts)) :
    ∃ gap piece rest, (∀ c ∈ gap, isGap c = true) ∧ t.Spelled piece ∧
      cs = gap ++ (piece ++ rest) ∧ tokens? rest = some ts := by
  induction cs with
  | nil => simp [tokens?] at h
  | cons c cs ih =>
    rw [tokens?] at h
    split at h
    · next hgap =>
      obtain ⟨gap, piece, rest, hall, hspelled, rfl, hrest⟩ := ih h
      exact ⟨c :: gap, piece, rest, List.forall_mem_cons.2 ⟨hgap, hall⟩, hspelled, rfl, hrest⟩
    · split at h
      · cases h
      · next t' rest hnext =>
        obtain ⟨ts', hts, heq⟩ := Option.map_eq_some_iff.1 h
        cases heq
        obtain ⟨piece, hspelled, hcs⟩ := exists_spelled_of_next? hnext
        exact ⟨[], piece, rest.1, by simp, hspelled, hcs, hts⟩

/-! ### Reading tokens back -/

/-- The token is a bracket, a comma or a colon; nothing runs on into it, nor it into anything. -/
def Token.isMark : Token → Bool
  | word _ | literal _ => false
  | _ => true

/-- Blanks in front of a text change nothing. -/
theorem tokens?_append_of_isGap {gap : List Char} (h : ∀ c ∈ gap, isGap c = true)
    (cs : List Char) : tokens? (gap ++ cs) = tokens? cs := by
  induction gap with
  | nil => rfl
  | cons c gap ih =>
    obtain ⟨hc, hgap⟩ := List.forall_mem_cons.1 h
    rw [List.cons_append, tokens?, if_pos hc, ih hgap]

theorem tokens?_of_next? {c : Char} {cs : List Char} {t : Token} {rest : Rest cs}
    (hgap : isGap c = false) (h : next? c cs = some (t, rest)) :
    tokens? (c :: cs) = (tokens? rest.1).map (t :: ·) := by
  rw [tokens?, hgap, if_neg Bool.false_ne_true, h]

/-- The marks and quotes that begin a token by themselves. -/
def markChars : List Char := ['(', ')', '[', ']', ',', ':', '"']

section

variable {c : Char} {cs : List Char}

theorem next?_number (hmarks : ∀ d ∈ markChars, c ≠ d) (h : startsNumber c cs = true) :
    ∃ rest : Rest cs, rest.1 = (digitSpan cs).2 ∧
      next? c cs = some (.literal (numberValue (c :: (digitSpan cs).1)), rest) := by
  simp only [markChars, List.forall_mem_cons] at hmarks
  simp [next?, hmarks, h]

theorem next?_word (hmarks : ∀ d ∈ markChars, c ≠ d) (hnumber : startsNumber c cs = false)
    (h : isIdentStart c = true) :
    ∃ rest : Rest cs, rest.1 = cs.dropWhile isIdentRest ∧
      next? c cs = some (.word (String.ofList (c :: cs.takeWhile isIdentRest)), rest) := by
  simp only [markChars, List.forall_mem_cons] at hmarks
  simp [next?, hmarks, hnumber, h, Rest.dropWhile]

end

/-- A numeral is read up to its end. -/
theorem tokens?_numeral (n : Numeral) {rest : List Char} (hrest : EndsToken rest) :
    tokens? (n.text ++ rest) = (tokens? rest).map (.literal (numberValue n.text) :: ·) := by
  obtain ⟨d, ds, hwhole, hd⟩ := n.exists_head_whole
  have hdigits : ∀ e ∈ d :: ds, isAsciiDigit e = true := hwhole ▸ n.isAsciiDigit_whole
  have hident : isIdentRest d = true := isIdentRest_of_isAsciiDigit hd
  -- a minus, or else the first digit, begins the number; digits and a fraction continue it
  obtain ⟨c, cs, htext, hcs, hgap, hmarks, hstart⟩ : ∃ c cs,
      n.text = c :: (cs ++ n.fractionText) ∧ (∀ e ∈ cs, isAsciiDigit e = true) ∧
      isGap c = false ∧ (∀ e ∈ markChars, c ≠ e) ∧
      startsNumber c (cs ++ (n.fractionText ++ rest)) = true := by
    rw [Numeral.text, hwhole]
    cases n.negative with
    | true =>
      refine ⟨'-', d :: ds, rfl, hdigits, by decide, by simp [markChars], ?_⟩
      simp [startsNumber, hd]
    | false =>
      refine ⟨d, ds, rfl, (List.forall_mem_cons.1 hdigits).2, isGap_of_isIdentRest hident,
        forall_ne_of_isIdentRest hident (by decide), ?_⟩
      rw [startsNumber, hd, Bool.true_or]
  have hspan := digitSpan_append_of_endsToken n hcs hrest
  obtain ⟨r, hr, hnext⟩ := next?_number hmarks hstart
  rw [hspan] at hr hnext
  rw [htext, List.cons_append, List.append_assoc, tokens?_of_next? hgap hnext, hr]

/-- A word is read up to its end. -/
theorem tokens?_word {name : List Char} (hname : isIdent name = true) {rest : List Char}
    (hrest : EndsToken rest) :
    tokens? (name ++ rest) = (tokens? rest).map (.word (String.ofList name) :: ·) := by
  obtain ⟨c, cs, rfl, hc, hcs⟩ := exists_head_of_isIdent hname
  have hident : isIdentRest c = true := isIdentRest_of_isIdentStart hc
  have hminus : c ≠ '-' := ne_of_isIdentStart hc (by decide)
  have hnumber : startsNumber c (cs ++ rest) = false := by
    simp [startsNumber, isAsciiDigit_of_isIdentStart hc, hminus]
  have hend : ∀ d ∈ rest.head?, isIdentRest d = false := fun d hd => (hrest d hd).1
  obtain ⟨r, hr, hnext⟩ :=
    next?_word (forall_ne_of_isIdentRest hident (by decide)) hnumber hc
  rw [dropWhile_append_of_head? hcs hend] at hr
  rw [takeWhile_append_of_head? hcs hend] at hnext
  rw [List.cons_append, tokens?_of_next? (isGap_of_isIdentRest hident) hnext, hr]

/-- **A token that is written is read**, if nothing behind it continues it. -/
theorem tokens?_append_of_spelled {t : Token} {piece : List Char} (h : t.Spelled piece)
    {rest : List Char} (hrest : t.isMark = false → EndsToken rest) :
    tokens? (piece ++ rest) = (tokens? rest).map (t :: ·) := by
  cases h with
  | openParen => exact tokens?_openParen rest
  | closeParen => exact tokens?_closeParen rest
  | openBracket =>
    rw [List.singleton_append, tokens?]
    rfl
  | closeBracket =>
    rw [List.singleton_append, tokens?]
    rfl
  | comma =>
    rw [List.singleton_append, tokens?]
    rfl
  | colon =>
    rw [List.singleton_append, tokens?]
    rfl
  | string hinside =>
    rw [List.cons_append, List.append_assoc, List.singleton_append]
    exact tokens?_quote (hinside.literalSpan?_append rest)
  | number n => exact tokens?_numeral n (hrest rfl)
  | word hname => exact tokens?_word hname (hrest rfl)

/-! ### Names -/

theorem more_append (cs : List Char) :
    (dottedName?.more cs).1 ++ (dottedName?.more cs).2 = cs := by
  fun_induction dottedName?.more cs with
  | case1 => rfl
  | case2 c hc => rfl
  | case3 c hc => rfl
  | case4 c d cs hc ih => exact congrArg (c :: ·) ih
  | case5 c d cs hc => rfl

theorem append_of_dottedName? {cs name behind : List Char}
    (h : dottedName? cs = some (name, behind)) : name ++ behind = cs := by
  cases cs with
  | nil => simp [dottedName?] at h
  | cons c cs =>
    rw [dottedName?] at h
    split at h
    · cases h
      rw [List.cons_append, more_append]
    · cases h

/-! ### Attributes -/

/-- The text spells the attribute: `@`, a name and perhaps arguments, with blanks anywhere between
them and in front. -/
inductive Spells : List Char → Attribute → Prop
  | intro {before gap name behind : List Char} {ts : List Token} {args : List Arg}
    (hbefore : ∀ c ∈ before, isGap c = true) (hgap : ∀ c ∈ gap, isGap c = true)
    (hname : dottedName? (name ++ behind) = some (name, behind))
    (hts : tokens? behind = some ts) (hargs : arguments? ts = some args) :
    Spells (before ++ '@' :: (gap ++ (name ++ behind))) ⟨String.ofList name, args⟩

theorem notMem_of_isGap {gap : List Char} (h : ∀ c ∈ gap, isGap c = true) {c : Char}
    (hc : isGap c = false) : c ∉ gap := by
  intro hmem
  rw [h c hmem] at hc
  cases hc

/-- A text is some blanks and what is left of it without them. -/
theorem exists_gap_append (cs : List Char) :
    ∃ gap, (∀ c ∈ gap, isGap c = true) ∧ cs = gap ++ cs.dropWhile isGap :=
  ⟨cs.takeWhile isGap, fun _ => List.mem_takeWhile_imp, List.takeWhile_append_dropWhile.symm⟩

/-- **The texts that are read** are those that spell the attribute. -/
theorem ofChars?_eq_some_iff {cs : List Char} {a : Attribute} :
    ofChars? cs = some a ↔ Spells cs a := by
  constructor
  · intro h
    rw [ofChars?] at h
    split at h
    · next rest hrest =>
      obtain ⟨⟨name, behind⟩, hname, h⟩ := Option.bind_eq_some_iff.1 h
      obtain ⟨ts, hts, h⟩ := Option.bind_eq_some_iff.1 h
      obtain ⟨args, hargs, h⟩ := Option.bind_eq_some_iff.1 h
      cases h
      obtain ⟨before, hbefore, hcs⟩ := exists_gap_append cs
      obtain ⟨gap, hgap, hrest'⟩ := exists_gap_append rest
      have happend := append_of_dottedName? hname
      rw [hcs, hrest, hrest', ← happend]
      exact .intro hbefore hgap (happend ▸ hname) hts hargs
    · cases h
  · rintro (@⟨before, gap, name, behind, ts, args, hbefore, hgap, hname, hts, hargs⟩)
    obtain ⟨c, tail, rfl, hc, -⟩ := exists_head_of_dottedName? hname
    have hat : ∀ d ∈ ('@' :: (gap ++ (c :: tail ++ behind))).head?, isGap d = false := by
      rintro d ⟨⟩
      decide
    have hhead : ∀ d ∈ (c :: tail ++ behind).head?, isGap d = false := by
      rintro d ⟨⟩
      exact isGap_of_isIdentStart hc
    rw [ofChars?, dropWhile_append_of_head? hbefore hat]
    simp only [dropWhile_append_of_head? hgap hhead, hname, hts, hargs, Option.bind_eq_bind,
      Option.bind_some]

theorem exists_of_ofChars? {cs : List Char} {a : Attribute} (h : ofChars? cs = some a) :
    ∃ front behind ts, cs = front ++ behind ∧ '(' ∉ front ∧ tokens? behind = some ts ∧
      arguments? ts = some a.args := by
  obtain @⟨before, gap, name, behind, ts, args, hbefore, hgap, hname, hts, hargs⟩ :=
    ofChars?_eq_some_iff.1 h
  have hparen : '(' ∉ name := by
    obtain ⟨c, tail, rfl, hc, htail⟩ := exists_head_of_dottedName? hname
    rw [List.mem_cons, not_or]
    exact ⟨(ne_of_isIdentStart hc (by decide)).symm, fun hmem =>
      absurd (htail _ hmem) (by decide)⟩
  have hbefore : '(' ∉ before := notMem_of_isGap hbefore (by decide)
  have hgap : '(' ∉ gap := notMem_of_isGap hgap (by decide)
  refine ⟨before ++ '@' :: (gap ++ name), behind, ts, by simp, ?_, hts, hargs⟩
  simp [hbefore, hgap, hparen]

/-- **What is read as an attribute was written as one**: its arguments are the tokens of a text
behind its name, and no parenthesis stands in front of that. -/
theorem exists_of_parse? {word : String} {a : Attribute} (h : parse? word = some a) :
    ∃ front behind ts, word.toList = front ++ behind ∧ '(' ∉ front ∧ tokens? behind = some ts ∧
      arguments? ts = some a.args := by
  obtain ⟨front, behind, ts, hchars, hparen, hts, hargs⟩ := exists_of_ofChars? h
  obtain ⟨mark, hmark, hword⟩ : ∃ mark, '(' ∉ mark ∧
      word.toList = mark ++ dropDirectiveMark word.toList := by
    fun_cases dropDirectiveMark word.toList with
    | case1 cs => exact ⟨['@'], by decide, by simp [*]⟩
    | case2 => exact ⟨[], by decide, rfl⟩
  refine ⟨mark ++ front, behind, ts, ?_, by simp [hmark, hparen], hts, hargs⟩
  rw [hword, hchars, List.append_assoc]

end Sieve.Schema.Attribute
