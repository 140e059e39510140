import Mathlib.Data.List.Basic
import Sieve.Proofs.Schema.Comments
import Sieve.Source.Collect

/-!
# Schemas joined from several texts

A schema may be spread over files, whose texts are joined by line breaks. If the search for blocks
leaves a text with no brace open, and the text ends with a closing brace but for blanks, then
nothing of it reaches into the text behind: a string literal or a comment at its end is ended by the
line break, the closing brace stands between any keyword and what could complete it, and a block
whose closing brace is missing would have left its own brace open. So the blocks of the joined text
are those of each text, at the place where that text begins.

## The distinction that decides it

A block that a word could begin is dropped for one of two reasons: what must stand in front of its
opening brace does not, and then the closing brace at the end of the text keeps it so; or the
opening brace has no partner, and then the braces that the search has open never get back to zero.

## Main definitions

* `SearchEnds` — how many braces the search for blocks has open at the end of a text
* `openBraces` — the same number, counted without looking for blocks
* `EndsClosed` — the texts that nothing reaches out of
* `Block.shift`, `Blocks.inTurn` — blocks further on, and those of texts one behind another

## Main results

* `searchEnds_iff` — the two ways to count open braces agree
* `blocksFrom_append_newline` — the search for blocks in two joined texts
* `Blocks.extract_joined` — joined texts, and files of a directory, are searched each by itself
-/

namespace Sieve.Schema

open Sieve.Text

/-! ### Blocks further on -/

/-- The block, `n` bytes further on. -/
def Block.shift (n : Nat) (b : Block) : Block :=
  { b with span := b.span.shift n, bodyStart := b.bodyStart + n }

theorem BlockText.blockAt_add (t : BlockText) (pos n : Nat) :
    t.blockAt (pos + n) = (t.blockAt pos).shift n := by
  simp only [blockAt, Block.shift, Span.shift, Block.mk.injEq, Span.mk.injEq, true_and]
  omega

theorem Block.ofWord?_add (pos n : Nat) (c : Char) (cs : List Char) :
    ofWord? (pos + n) c cs = (ofWord? pos c cs).map fun p => (p.1.shift n, p.2) := by
  refine Option.ext fun p => ?_
  obtain ⟨b, after⟩ := p
  rw [Option.map_eq_some_iff]
  constructor
  · intro h
    obtain ⟨t, htext, rfl⟩ := BlockText.ofWord?_eq_some_iff.1 h
    exact ⟨_, BlockText.ofWord?_eq_some_iff.2 ⟨t, htext, rfl⟩, by rw [t.blockAt_add]⟩
  · rintro ⟨⟨b', after'⟩, h, hp⟩
    obtain ⟨t, htext, rfl⟩ := BlockText.ofWord?_eq_some_iff.1 h
    obtain ⟨rfl, rfl⟩ := Prod.mk.inj hp
    exact BlockText.ofWord?_eq_some_iff.2 ⟨t, htext, (t.blockAt_add pos n).symm⟩

/-- **Where a text begins moves its blocks** and changes nothing else. -/
theorem blocksFrom_add (m : Mode) (depth : Nat) (afterIdent : Bool) (pos n : Nat)
    (cs : List Char) : blocksFrom m depth afterIdent (pos + n) cs =
      (blocksFrom m depth afterIdent pos cs).map (Block.shift n) := by
  induction m, depth, afterIdent, pos, cs using blocksFrom_induction with
  | nil m depth afterIdent pos => rw [blocksFrom, blocksFrom, List.map_nil]
  | word m depth afterIdent pos c cs hbegin hword ih =>
    rw [blocksFrom_word hbegin, blocksFrom_word hbegin, Block.ofWord?_add, hword, Option.map_none,
      blocksBehind, blocksBehind, ← ih, Nat.add_right_comm]
  | block m depth afterIdent pos c cs b after hbegin hword ih =>
    rw [blocksFrom_word hbegin, blocksFrom_word hbegin, Block.ofWord?_add, hword, Option.map_some,
      blocksBehind, blocksBehind, List.map_cons, ← ih]
    rfl
  | char m depth afterIdent pos c cs hbegin ih =>
    rw [blocksFrom_char hbegin, blocksFrom_char hbegin, ← ih, Nat.add_right_comm]

/-! ### Braces left open -/

/-- The search for blocks, begun as told by the first four arguments, reaches the end of the text
with the last number of braces open. -/
inductive SearchEnds : Mode → Nat → Bool → Nat → List Char → Nat → Prop
  | nil (m : Mode) (depth : Nat) (afterIdent : Bool) (pos : Nat) :
      SearchEnds m depth afterIdent pos [] depth
  | word {m : Mode} {depth : Nat} {afterIdent : Bool} {pos : Nat} {c : Char} {cs : List Char}
      {left : Nat} (hbegin : BeginsWord m depth afterIdent c)
      (hword : Block.ofWord? pos c cs = none)
      (h : SearchEnds .code 0 true (pos + byteLength (c :: cs.takeWhile isIdentRest))
        (cs.dropWhile isIdentRest) left) : SearchEnds m depth afterIdent pos (c :: cs) left
  | block {m : Mode} {depth : Nat} {afterIdent : Bool} {pos : Nat} {c : Char} {cs : List Char}
      {left : Nat} {b : Block} {after : List Char} (hbegin : BeginsWord m depth afterIdent c)
      (hword : Block.ofWord? pos c cs = some (b, after))
      (h : SearchEnds .code 0 false b.span.stop after left) :
      SearchEnds m depth afterIdent pos (c :: cs) left
  | char {m : Mode} {depth : Nat} {afterIdent : Bool} {pos : Nat} {c : Char} {cs : List Char}
      {left : Nat} (hbegin : ¬ BeginsWord m depth afterIdent c)
      (h : SearchEnds ((m.reading c).afterCode c cs)
        (if m.reading c = .code then braceDepth depth c else depth)
        (m.reading c = .code && isIdentRest c) (pos + c.utf8Size) cs left) :
      SearchEnds m depth afterIdent pos (c :: cs) left

/-- How many braces are open at the end of a text that begins inside `depth` of them. -/
def openBraces (m : Mode) (depth : Nat) : List Char → Nat
  | [] => depth
  | c :: cs => openBraces ((m.reading c).afterCode c cs)
      (if m.reading c = .code then braceDepth depth c else depth) cs

/-- A character that the search for blocks passes without opening or closing anything. -/
def isPlain (c : Char) : Bool := !(['"', '/', '\x7b', '\x7d'].contains c)

theorem isPlain_of_isIdentRest {c : Char} (h : isIdentRest c = true) : isPlain c = true := by
  have hne : ∀ d ∈ ['"', '/', '\x7b', '\x7d'], c ≠ d := forall_ne_of_isIdentRest h (by decide)
  simpa [isPlain] using hne

theorem isPlain_of_isAsciiSpace {c : Char} (h : isAsciiSpace c = true) : isPlain c = true := by
  simp only [isAsciiSpace, Bool.or_eq_true, beq_iff_eq] at h
  obtain (((rfl | rfl) | rfl) | rfl) | rfl := h <;> decide

theorem isPlain_of_isBlank {c : Char} (h : isBlank c = true) : isPlain c = true := by
  rw [isPlain, Bool.not_eq_true', ← Bool.not_eq_true, List.contains_iff_mem]
  intro hmem
  simp only [List.mem_cons, List.not_mem_nil, or_false] at hmem
  rcases hmem with rfl | rfl | rfl | rfl <;> cases h

theorem BlockText.isPlain_of_mem_opening (t : BlockText) {c : Char} (h : c ∈ t.opening) :
    isPlain c = true :=
  (t.blank_or_isIdentRest_of_mem_opening h).elim isPlain_of_isAsciiSpace isPlain_of_isIdentRest

section

variable {m : Mode} {depth : Nat} {c : Char} {cs : List Char}

theorem braceDepth_of_plain (hc : isPlain c = true) : braceDepth depth c = depth := by
  obtain ⟨-, -, hleft, hright⟩ : c ≠ '"' ∧ c ≠ '/' ∧ c ≠ '\x7b' ∧ c ≠ '\x7d' := by
    simpa [isPlain] using hc
  rw [braceDepth, if_neg hleft, if_neg hright]

theorem openBraces_cons_of_plain (hread : m.reading c = .code) (hc : isPlain c = true)
    (cs : List Char) : openBraces m depth (c :: cs) = openBraces .code depth cs := by
  obtain ⟨hquote, hslash, -, -⟩ : c ≠ '"' ∧ c ≠ '/' ∧ c ≠ '\x7b' ∧ c ≠ '\x7d' := by
    simpa [isPlain] using hc
  rw [openBraces, hread, braceDepth_of_plain hc]
  simp [Mode.afterCode, Mode.afterWord, hquote, hslash]

theorem openBraces_append_of_plain {xs : List Char} (hxs : ∀ c ∈ xs, isPlain c = true)
    (ys : List Char) : openBraces .code depth (xs ++ ys) = openBraces .code depth ys := by
  induction xs with
  | nil => rfl
  | cons x xs ih =>
    obtain ⟨hx, hxs⟩ := List.forall_mem_cons.1 hxs
    rw [List.cons_append, openBraces_cons_of_plain (Mode.reading_code x) hx, ih hxs]

/-- Where code begins with a plain character, it makes no difference in which mode that is read. -/
theorem openBraces_append_of_plain_cons {x : Char} {xs : List Char} (hread : m.reading x = .code)
    (hxs : ∀ c ∈ x :: xs, isPlain c = true) (ys : List Char) :
    openBraces m depth (x :: xs ++ ys) = openBraces .code depth ys := by
  obtain ⟨hx, hxs⟩ := List.forall_mem_cons.1 hxs
  rw [List.cons_append, openBraces_cons_of_plain hread hx, openBraces_append_of_plain hxs]

/-- A brace moves the number of open braces alike with one more open around it, unless it closes
that one. -/
theorem braceDepth_add_one (h : ¬ (c = '\x7d' ∧ depth = 0)) :
    braceDepth (depth + 1) c = braceDepth depth c + 1 := by
  rw [braceDepth, braceDepth]
  split
  · rfl
  · split
    · next hc =>
      have hdepth : depth ≠ 0 := fun hzero => h ⟨hc, hzero⟩
      omega
    · rfl

/-- A step inside of a body, with the brace in front of the body open in addition. -/
theorem openBraces_cons_of_open (h : ¬ (m.reading c = .code ∧ c = '\x7d' ∧ depth = 0)) :
    openBraces m (depth + 1) (c :: cs) = openBraces ((m.reading c).afterCode c cs)
      ((if m.reading c = .code then braceDepth depth c else depth) + 1) cs := by
  rw [openBraces]
  split
  · next hread => rw [braceDepth_add_one fun hc => h ⟨hread, hc⟩]
  · rfl

/-- **Behind the brace that closes a body**, the brace in front of the body is open no more. -/
theorem openBraces_of_bodySpan? {body rest : List Char}
    (h : bodySpan? m depth cs = some (body, rest)) :
    openBraces m (depth + 1) cs = openBraces .code 0 rest := by
  induction cs generalizing m depth body with
  | nil => cases h
  | cons c cs ih =>
    by_cases hclose : m.reading c = .code ∧ c = '\x7d' ∧ depth = 0
    · obtain ⟨hread, rfl, rfl⟩ := hclose
      rw [bodySpan?] at h
      simp only [hread, and_self, if_true, Option.some.injEq, Prod.mk.injEq] at h
      rw [openBraces, hread, h.2]
      rfl
    · rw [bodySpan?_cons hclose] at h
      obtain ⟨⟨body', rest'⟩, hp, heq⟩ := Option.map_eq_some_iff.1 h
      obtain ⟨-, rfl⟩ := Prod.mk.inj heq
      rw [openBraces_cons_of_open hclose, ih hp]

/-- **A body that is not closed leaves a brace open.** -/
theorem openBraces_pos_of_bodySpan? (h : bodySpan? m depth cs = none) :
    0 < openBraces m (depth + 1) cs := by
  induction cs generalizing m depth with
  | nil => exact Nat.succ_pos depth
  | cons c cs ih =>
    by_cases hclose : m.reading c = .code ∧ c = '\x7d' ∧ depth = 0
    · rw [bodySpan?, if_pos hclose] at h
      cases h
    · rw [bodySpan?_cons hclose, Option.map_eq_none_iff] at h
      rw [openBraces_cons_of_open hclose]
      exact ih h

end

/-- Behind the brace that opens a block, one brace is open. -/
theorem BlockText.openBraces_opening_append (t : BlockText) {m : Mode} {depth : Nat}
    {afterIdent : Bool} {c : Char} {cs inside : List Char}
    (hbegin : BeginsWord m depth afterIdent c) (h : c :: cs = t.opening ++ '\x7b' :: inside) :
    openBraces m depth (c :: cs) = openBraces .code 1 inside := by
  obtain ⟨hread, rfl, -, -⟩ := hbegin
  obtain ⟨d, ds, hopening⟩ : ∃ d ds, t.opening = d :: ds := by
    obtain ⟨d, ds, hkeyword, -⟩ := exists_head_of_isIdent t.kind.isIdent_keyword
    exact ⟨d, ds ++ t.gap ++ t.name ++ t.inner, by rw [opening, hkeyword]; rfl⟩
  have hplain : ∀ e ∈ d :: ds, isPlain e = true := fun e he =>
    t.isPlain_of_mem_opening (by rw [hopening]; exact he)
  obtain rfl : c = d := by
    rw [hopening] at h
    exact (List.cons.inj h).1
  rw [h, hopening, openBraces_append_of_plain_cons hread hplain, openBraces]
  rfl

/-- The braces of a block are all closed. -/
theorem BlockText.openBraces_text_append (t : BlockText) {m : Mode} {depth : Nat}
    {afterIdent : Bool} {c : Char} {cs after : List Char} (hbegin : BeginsWord m depth afterIdent c)
    (h : c :: cs = t.text ++ after) : openBraces m depth (c :: cs) = openBraces .code 0 after := by
  have htext : c :: cs = t.opening ++ '\x7b' :: (t.body ++ '\x7d' :: after) := by
    rw [h, text, head_eq]
    simp
  rw [t.openBraces_opening_append hbegin htext]
  exact openBraces_of_bodySpan? (t.closes after)

/-- A word that is passed as a whole opens and closes nothing. -/
theorem openBraces_of_beginsWord {m : Mode} {depth : Nat} {afterIdent : Bool} {c : Char}
    (hbegin : BeginsWord m depth afterIdent c) (cs : List Char) :
    openBraces m depth (c :: cs) = openBraces .code 0 (cs.dropWhile isIdentRest) := by
  obtain ⟨hread, rfl, hstart, -⟩ := hbegin
  have hplain : ∀ e ∈ c :: cs.takeWhile isIdentRest, isPlain e = true :=
    List.forall_mem_cons.2 ⟨isPlain_of_isIdentRest (isIdentRest_of_isIdentStart hstart),
      fun e he => isPlain_of_isIdentRest (List.mem_takeWhile_imp he)⟩
  have hword : openBraces m 0 (c :: cs.takeWhile isIdentRest ++ cs.dropWhile isIdentRest) =
      openBraces .code 0 (cs.dropWhile isIdentRest) :=
    openBraces_append_of_plain_cons hread hplain (cs.dropWhile isIdentRest)
  rwa [List.cons_append, List.takeWhile_append_dropWhile] at hword

/-- **Braces are counted alike** by the search for blocks and without it. -/
theorem searchEnds_iff {m : Mode} {depth : Nat} {afterIdent : Bool} {pos : Nat} {cs : List Char}
    {left : Nat} : SearchEnds m depth afterIdent pos cs left ↔ openBraces m depth cs = left := by
  constructor
  · intro h
    induction h with
    | nil => rfl
    | word hbegin _ _ ih => rw [openBraces_of_beginsWord hbegin, ih]
    | block hbegin hword _ ih =>
      obtain ⟨t, htext, rfl⟩ := BlockText.ofWord?_eq_some_iff.1 hword
      rw [t.openBraces_text_append hbegin htext, ih]
    | char _ _ ih => rw [openBraces, ih]
  · intro h
    induction m, depth, afterIdent, pos, cs using blocksFrom_induction with
    | nil m depth afterIdent pos =>
      obtain rfl : depth = left := h
      exact .nil m depth afterIdent pos
    | word m depth afterIdent pos c cs hbegin hword ih =>
      rw [openBraces_of_beginsWord hbegin] at h
      exact .word hbegin hword (ih h)
    | block m depth afterIdent pos c cs b after hbegin hword ih =>
      obtain ⟨t, htext, rfl⟩ := BlockText.ofWord?_eq_some_iff.1 hword
      rw [t.openBraces_text_append hbegin htext] at h
      exact .block hbegin hword (ih h)
    | char m depth afterIdent pos c cs hbegin ih => exact .char hbegin (ih h)

/-! ### The end of a text -/

/-- The last character of a text is a closing brace, blanks apart, which may be any of Unicode. -/
def EndsWithBrace (cs : List Char) : Prop :=
  ∃ front blanks, cs = front ++ '\x7d' :: blanks ∧ ∀ c ∈ blanks, isBlank c = true

theorem EndsWithBrace.brace_mem {cs : List Char} (h : EndsWithBrace cs) : '\x7d' ∈ cs := by
  obtain ⟨front, blanks, rfl, -⟩ := h
  simp

/-- Behind a first part, such a text goes on as one, or has blanks only. -/
theorem EndsWithBrace.of_append {xs ys : List Char} (h : EndsWithBrace (xs ++ ys)) :
    EndsWithBrace ys ∨ ∀ c ∈ ys, isBlank c = true := by
  obtain ⟨front, blanks, heq, hblanks⟩ := h
  rcases List.append_eq_append_iff.1 heq with ⟨zs, -, hys⟩ | ⟨zs, -, hys⟩
  · exact .inl ⟨zs, blanks, hys, hblanks⟩
  · cases zs with
    | nil => exact .inl ⟨[], blanks, hys.symm, hblanks⟩
    | cons z zs =>
      obtain ⟨-, rfl⟩ := List.cons.inj hys
      exact .inr fun c hc => hblanks c (List.mem_append_right zs hc)

/-- A first part without a closing brace leaves it behind. -/
theorem EndsWithBrace.of_append_of_notMem {xs ys : List Char} (h : EndsWithBrace (xs ++ ys))
    (hxs : '\x7d' ∉ xs) : EndsWithBrace ys := by
  refine h.of_append.resolve_right fun hys => ?_
  rcases List.mem_append.1 h.brace_mem with hmem | hmem
  · exact hxs hmem
  · exact absurd (hys _ hmem) (by decide)

theorem Mode.afterCode_append_newline (m : Mode) (c : Char) (cs rest : List Char) :
    m.afterCode c (cs ++ '\n' :: rest) = m.afterCode c cs := by
  cases cs with
  | nil => simp [afterCode]
  | cons d ds => rfl

/-- Only a backslash makes the character behind it part of an escape. -/
theorem Mode.afterCode_ne_escape (m : Mode) {c : Char} (hc : c ≠ '\\') (cs : List Char) :
    m.afterCode c cs ≠ .escape := by
  rw [afterCode]
  split
  · decide
  · cases m with
    | code =>
      rw [afterWord]
      split <;> decide
    | string =>
      rw [afterWord, if_neg hc]
      split <;> decide
    | escape => simp [afterWord]
    | comment => simp [afterWord]

section

variable {m : Mode} {depth : Nat} {cs : List Char}

/-- Blanks open and close no braces. -/
theorem openBraces_of_blank (h : ∀ c ∈ cs, isBlank c = true) :
    openBraces m depth cs = depth := by
  induction cs generalizing m with
  | nil => rfl
  | cons c cs ih =>
    obtain ⟨hc, hcs⟩ := List.forall_mem_cons.1 h
    rw [openBraces, braceDepth_of_plain (isPlain_of_isBlank hc), ite_self, ih hcs]

/-- **A line break behind blanks ends whatever the text has begun**, a string literal or a comment,
and the search begins anew. -/
theorem blocksFrom_blank_append_newline (h : ∀ c ∈ cs, isBlank c = true) (hm : m ≠ .escape)
    (afterIdent : Bool) (pos : Nat) (rest : List Char) :
    blocksFrom m 0 afterIdent pos (cs ++ '\n' :: rest) =
      blocksFrom m 0 afterIdent pos cs ++
        blocksFrom .code 0 false (pos + byteLength cs + 1) rest := by
  induction cs generalizing m afterIdent pos with
  | nil =>
    have hread : m.reading '\n' = .code := by cases m <;> simp_all [Mode.reading]
    have hbegin : ¬ BeginsWord m 0 afterIdent '\n' := fun hb => absurd hb.2.2.1 (by decide)
    rw [List.nil_append, blocksFrom_char hbegin, hread, blocksFrom]
    rfl
  | cons c cs ih =>
    obtain ⟨hc, hcs⟩ := List.forall_mem_cons.1 h
    have hbegin : ¬ BeginsWord m 0 afterIdent c := fun hb => by
      have hvisible := isBlank_of_isIdentRest (isIdentRest_of_isIdentStart hb.2.2.1)
      rw [hc] at hvisible
      cases hvisible
    have hne : c ≠ '\\' := by
      rintro rfl
      cases hc
    rw [List.cons_append, blocksFrom_char hbegin, blocksFrom_char hbegin,
      Mode.afterCode_append_newline, braceDepth_of_plain (isPlain_of_isBlank hc), ite_self,
      ih hcs (Mode.afterCode_ne_escape _ hne cs), byteLength_cons, ← Nat.add_assoc]

/-- **A word that begins no block begins none with more text behind**, if a closing brace stands in
front of that text and the search has no brace open there. -/
theorem ofWord?_append_newline_eq_none {afterIdent : Bool} {pos : Nat} {c : Char}
    (hbegin : BeginsWord m depth afterIdent c) (hword : Block.ofWord? pos c cs = none)
    (hopen : openBraces m depth (c :: cs) = 0) (hbrace : '\x7d' ∈ c :: cs) (rest : List Char) :
    Block.ofWord? pos c (cs ++ '\n' :: rest) = none := by
  refine Option.eq_none_iff_forall_ne_some.2 fun p hsome => ?_
  obtain ⟨t, htext, -⟩ := BlockText.ofWord?_eq_some_iff.1 hsome
  have hopening : c :: cs ++ '\n' :: rest =
      t.opening ++ '\x7b' :: (t.body ++ '\x7d' :: p.2) := by
    rw [List.cons_append, htext, BlockText.text, BlockText.head_eq]
    simp
  have hplain : '\x7d' ∉ t.opening := fun hmem =>
    absurd (t.isPlain_of_mem_opening hmem) (by decide)
  -- the brace that opens the block is not behind the closing one
  obtain ⟨inside, hcs⟩ : ∃ inside, c :: cs = t.opening ++ '\x7b' :: inside := by
    rcases List.append_eq_append_iff.1 hopening with ⟨zs, hzs, -⟩ | ⟨zs, hzs, htail⟩
    · exact absurd (hzs ▸ List.mem_append_left zs hbrace) hplain
    · cases zs with
      | nil => exact absurd (hzs ▸ hbrace) (by simpa using hplain)
      | cons z zs =>
        obtain ⟨rfl, -⟩ := List.cons.inj htail
        exact ⟨zs, hzs⟩
  cases hspan : bodySpan? .code 0 inside with
  | some q =>
    -- its partner is not either, so the word begins a block by itself
    obtain ⟨_, hblock⟩ := t.ofWord?_withBody pos hcs hspan
    rw [hword] at hblock
    cases hblock
  | none =>
    -- its partner is, so it is still open at the end
    have hpos := openBraces_pos_of_bodySpan? hspan
    rw [t.openBraces_opening_append hbegin hcs] at hopen
    rw [Nat.zero_add, hopen] at hpos
    exact Nat.lt_irrefl 0 hpos

/-- **The search for blocks in two joined texts** finds those of the first and then those of the
second, if the search leaves no brace of the first open and the first ends with a closing brace. -/
theorem blocksFrom_append_newline {afterIdent : Bool} {pos : Nat}
    (hopen : openBraces m depth cs = 0) (hend : EndsWithBrace cs) (rest : List Char) :
    blocksFrom m depth afterIdent pos (cs ++ '\n' :: rest) =
      blocksFrom m depth afterIdent pos cs ++
        blocksFrom .code 0 false (pos + byteLength cs + 1) rest := by
  -- what is left of the first text ends with a closing brace, or is blank and outside of braces
  induction m, depth, afterIdent, pos, cs using blocksFrom_induction with
  | nil m depth afterIdent pos => cases hend.brace_mem
  | word m depth afterIdent pos c cs hbegin hword ih =>
    have hnone := ofWord?_append_newline_eq_none hbegin hword hopen hend.brace_mem rest
    have hident : ∀ d ∈ c :: cs.takeWhile isIdentRest, isIdentRest d = true :=
      List.forall_mem_cons.2 ⟨isIdentRest_of_isIdentStart hbegin.2.2.1,
        fun d hd => List.mem_takeWhile_imp hd⟩
    have hcut : EndsWithBrace (c :: cs.takeWhile isIdentRest ++ cs.dropWhile isIdentRest) := by
      rwa [List.cons_append, List.takeWhile_append_dropWhile]
    have hbehind : EndsWithBrace (cs.dropWhile isIdentRest) :=
      hcut.of_append_of_notMem fun hmem => absurd (hident _ hmem) (by decide)
    rw [openBraces_of_beginsWord hbegin] at hopen
    rw [List.cons_append, blocksFrom_word hbegin, blocksFrom_word hbegin, hnone, hword,
      blocksBehind, blocksBehind, takeWhile_append_cons rfl, dropWhile_append_cons rfl,
      ih hopen hbehind, Nat.add_assoc pos, ← byteLength_append, List.cons_append,
      List.takeWhile_append_dropWhile]
  | block m depth afterIdent pos c cs b after hbegin hword ih =>
    obtain ⟨t, htext, rfl⟩ := BlockText.ofWord?_eq_some_iff.1 hword
    have hmore : Block.ofWord? pos c (cs ++ '\n' :: rest) =
        some (t.blockAt pos, after ++ '\n' :: rest) :=
      BlockText.ofWord?_eq_some_iff.2 ⟨t, by rw [← List.cons_append, htext, List.append_assoc], rfl⟩
    rw [t.openBraces_text_append hbegin htext] at hopen
    have hbehind : blocksFrom .code 0 false (t.blockAt pos).span.stop (after ++ '\n' :: rest) =
        blocksFrom .code 0 false (t.blockAt pos).span.stop after ++
          blocksFrom .code 0 false ((t.blockAt pos).span.stop + byteLength after + 1) rest := by
      rw [htext] at hend
      rcases hend.of_append with hend | hblank
      · exact ih hopen hend
      · exact blocksFrom_blank_append_newline hblank (by decide) false _ rest
    rw [List.cons_append, blocksFrom_word hbegin, blocksFrom_word hbegin, hmore, hword,
      blocksBehind, blocksBehind, hbehind, htext, byteLength_append, ← Nat.add_assoc]
    rfl
  | char m depth afterIdent pos c cs hbegin ih =>
    rw [openBraces] at hopen
    have hbehind : blocksFrom ((m.reading c).afterCode c cs)
        (if m.reading c = .code then braceDepth depth c else depth)
        (m.reading c = .code && isIdentRest c) (pos + c.utf8Size) (cs ++ '\n' :: rest) =
        blocksFrom ((m.reading c).afterCode c cs)
          (if m.reading c = .code then braceDepth depth c else depth)
          (m.reading c = .code && isIdentRest c) (pos + c.utf8Size) cs ++
        blocksFrom .code 0 false (pos + c.utf8Size + byteLength cs + 1) rest := by
      rcases (show EndsWithBrace ([c] ++ cs) from hend).of_append with hend' | hblank
      · exact ih hopen hend'
      · obtain rfl : '\x7d' = c := (List.mem_cons.1 hend.brace_mem).resolve_right fun hmem =>
          absurd (hblank _ hmem) (by decide)
        rw [openBraces_of_blank hblank] at hopen
        rw [hopen]
        exact blocksFrom_blank_append_newline hblank
          (Mode.afterCode_ne_escape _ (by decide) cs) _ _ rest
    rw [List.cons_append, blocksFrom_char hbegin, blocksFrom_char hbegin,
      Mode.afterCode_append_newline, hbehind, byteLength_cons, ← Nat.add_assoc]

end

/-! ### Whole texts -/

/-- Nothing of the text reaches into a text behind it: the search for blocks leaves no brace open,
and the last character is a closing brace, blanks apart. -/
structure EndsClosed (text : String) : Prop where
  search : SearchEnds .code 0 false 0 text.toList 0
  brace : EndsWithBrace text.toList

namespace Blocks

/-- The blocks, `n` bytes further on. -/
def shift (n : Nat) (bs : Blocks) : Blocks :=
  ⟨bs.models.map (Block.shift n), bs.enums.map (Block.shift n)⟩

/-- Blocks of one text and then of another, still apart by kind. -/
instance : Append Blocks := ⟨fun bs cs => ⟨bs.models ++ cs.models, bs.enums ++ cs.enums⟩⟩

/-- The blocks of texts one behind another, with a line break between any two. Each text is searched
by itself, and the first begins at byte `pos`. -/
def inTurn (pos : Nat) : List String → Blocks
  | [] => ⟨[], []⟩
  | text :: texts =>
    (extract text).shift pos ++ inTurn (pos + (byteLength text.toList + 1)) texts

theorem append_eq (bs cs : Blocks) : bs ++ cs = ⟨bs.models ++ cs.models, bs.enums ++ cs.enums⟩ :=
  rfl

theorem shift_append (n : Nat) (bs cs : Blocks) :
    (bs ++ cs).shift n = bs.shift n ++ cs.shift n := by
  simp [append_eq, shift]

theorem shift_shift (m n : Nat) (bs : Blocks) : (bs.shift m).shift n = bs.shift (n + m) := by
  have hblock : ∀ b : Block, (b.shift m).shift n = b.shift (n + m) := fun b => by
    simp [Block.shift, Span.shift, Nat.add_comm n, Nat.add_assoc]
  simp [shift, hblock]

theorem shift_zero (bs : Blocks) : bs.shift 0 = bs := by
  have hblock : Block.shift 0 = id := funext fun b => rfl
  simp [shift, hblock]

/-- **Two joined texts are searched each by itself.** -/
theorem extract_append_newline {s : String} (h : EndsClosed s) (t : String) :
    extract (s ++ "\n" ++ t) = extract s ++ (extract t).shift (byteLength s.toList + 1) := by
  have hjoined : (s ++ "\n" ++ t).toList = s.toList ++ '\n' :: t.toList := by simp
  have hmoved := blocksFrom_add .code 0 false 0 (byteLength s.toList + 1) t.toList
  have hblocks : blocks (s ++ "\n" ++ t) =
      blocks s ++ (blocks t).map (Block.shift (byteLength s.toList + 1)) := by
    rw [blocks, hjoined, blocksFrom_append_newline (searchEnds_iff.1 h.search) h.brace,
      Nat.add_assoc, hmoved]
    rfl
  have hkind : ∀ kind : BlockKind, (blocks (s ++ "\n" ++ t)).filter (·.kind == kind) =
      (blocks s).filter (·.kind == kind) ++
        ((blocks t).filter (·.kind == kind)).map (Block.shift (byteLength s.toList + 1)) := by
    intro kind
    rw [hblocks, List.filter_append, List.filter_map]
    rfl
  rw [append_eq, extract, hkind, hkind]
  rfl

/-- **Any number of joined texts are searched each by itself.** -/
theorem extract_intercalate {texts : List String} (h : ∀ text ∈ texts, EndsClosed text)
    (pos : Nat) :
    (extract ("\n".intercalate texts)).shift pos = inTurn pos texts := by
  induction texts generalizing pos with
  | nil =>
    rw [String.intercalate_nil, inTurn, extract, blocks, String.toList_empty, blocksFrom]
    rfl
  | cons text texts ih =>
    obtain ⟨htext, htexts⟩ := List.forall_mem_cons.1 h
    cases texts with
    | nil =>
      rw [String.intercalate_singleton, inTurn, inTurn, append_eq, List.append_nil, List.append_nil]
    | cons text' texts =>
      rw [String.intercalate_cons_cons, extract_append_newline htext, shift_append, shift_shift,
        ih htexts, ← inTurn]

end Blocks

/-! ### Files below a directory -/

/-- The texts of files that can all be read. -/
theorem mapM_textOf {path : String} {files : List Source.Found} {texts : List String}
    (h : files.map Prod.snd = texts.map some) : files.mapM (Source.textOf path) = .ok texts := by
  induction files generalizing texts with
  | nil =>
    obtain rfl : texts = [] := List.map_eq_nil_iff.1 h.symm
    rfl
  | cons file files ih =>
    obtain ⟨text, texts, rfl, htext, htexts⟩ := List.map_eq_cons_iff.1 h.symm
    rw [List.mapM_cons, ih htexts.symm, Source.textOf, ← htext]
    rfl

/-- **Joined texts are searched each by itself.** If nothing of a text reaches into the text behind
it, then the blocks of both, joined by a line break, are those of the first and behind them those of
the second, which stand as many bytes further on as the first text and the line break have. So the
schema made of the files below a directory, all readable and all ending like that, has the blocks of
each file, in the order of the files. -/
theorem Blocks.extract_joined :
    (∀ s t : String, EndsClosed s →
      extract (s ++ "\n" ++ t) = extract s ++ (extract t).shift (byteLength s.toList + 1)) ∧
    ∀ (root : Files.Node) (path : String) (extensions : List String)
      (entries : List (String × Files.Node)) (texts : List String),
      root.locate path = .ok (.directory entries) →
      (Source.schemaFiles extensions path entries).map Prod.snd = texts.map some →
      (∀ text ∈ texts, EndsClosed text) →
      ∃ source, Source.collect root path extensions = .ok source ∧
        extract source = inTurn 0 texts := by
  refine ⟨fun s t h => extract_append_newline h t, ?_⟩
  intro root path extensions entries texts hroot hfiles hends
  refine ⟨"\n".intercalate texts, ?_, ?_⟩
  · rw [Source.collect, hroot]
    show ((Source.schemaFiles extensions path entries).mapM (Source.textOf path)).map _ = _
    rw [mapM_textOf hfiles]
    rfl
  · rw [← extract_intercalate hends 0, shift_zero]

/-- A model with a brace in a literal, a declaration without a name, and a comment whose last
character is a brace. -/
def userFile : String :=
  "model User \x7b\n id Int @default(\"\x7d\")\n\x7d\nmodel \x7b x Int \x7d\n// model \"\x7d \n"

/-- An enum, with a line break behind it. -/
def roleFile : String := "enum Role \x7b A \x7d\n"

/-- A directory that lists its files out of order, with one that is passed over. -/
def schemaDirectory : List (String × Files.Node) :=
  [("b.prisma", .file (some roleFile)),
    ("migrations", .directory [("c.prisma", .file (some "model"))]),
    ("a.prisma", .file (some userFile))]

theorem Blocks.extract_joined_userFile :
    extract (userFile ++ "\n" ++ roleFile) =
        extract userFile ++ (extract roleFile).shift (byteLength userFile.toList + 1) ∧
      ∃ source, Source.collect (.directory [("db", .directory schemaDirectory)]) "db" ["prisma"] =
          .ok source ∧ extract source = inTurn 0 [userFile, roleFile] := by
  have huser : EndsClosed userFile :=
    ⟨searchEnds_iff.2 (by decide +kernel), userFile.toList.dropLast.dropLast.dropLast,
      [' ', '\n'], by decide +kernel, by simp [isBlank, blankRanges]⟩
  have hrole : EndsClosed roleFile :=
    ⟨searchEnds_iff.2 (by decide +kernel), roleFile.toList.dropLast.dropLast, ['\n'],
      by decide +kernel, by simp [isBlank, blankRanges]⟩
  have hfiles : (Source.schemaFiles ["prisma"] "db" schemaDirectory).map Prod.snd =
      [some userFile, some roleFile] := by
    have hbelow : (Source.filesBelow "db" schemaDirectory).filter
        (fun f => f.1.getLast?.any (Source.hasExtension ["prisma"])) =
        [(["b.prisma"], some roleFile), (["a.prisma"], some userFile)] := by
      decide +kernel
    have horder : Source.pathLe ["b.prisma"] ["a.prisma"] = false := by decide +kernel
    rw [Source.schemaFiles, hbelow]
    simp [List.mergeSort, horder]
  exact ⟨extract_joined.1 userFile roleFile huser,
    extract_joined.2 (.directory [("db", .directory schemaDirectory)]) "db" ["prisma"] _
      [userFile, roleFile] rfl hfiles (by simp [huser, hrole])⟩

end Sieve.Schema
