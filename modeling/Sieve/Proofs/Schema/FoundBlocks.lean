import Mathlib.Data.List.Perm.Basic
import Sieve.Proofs.Schema.BlockText
import Sieve.Proofs.Schema.Slices

/-!
# What a found block is

Every block that is found in a text, however malformed the text is elsewhere, is written there: its
places point at it, and it is made of its keyword, its name and its body with nothing else but
blanks. The brace behind the body is the partner of the one in front of it, told by the braces of
the body that are code: at no place more of them are closed than opened before, and in the end all
are closed.

Two blocks never share a piece of the text. The search goes on behind a block that it has found, and
so the blocks come in the order of their places.

## Main definitions

* `codeChars` — the characters of a text outside of string literals and comments
* `Balanced` — the braces of a text match
* `Block.SoundIn` — the block is written in a text, at its own place
* `Span.Before`, `Span.Apart` — one stretch ends before another begins; two do not overlap

## Main results

* `count_of_bodySpan?` — a brace that is found to close a body does close it
* `soundIn_of_mem_blocks` — every block is written where it is found
* `pairwise_before_blocks` — blocks come in order
* `Blocks.extract_sound` — both, for the blocks apart by kind
-/

namespace Sieve.Schema

open Sieve.Text

/-! ### Braces that are code -/

/-- The characters of a text that are read as code: all that stand outside of string literals and
comments, and the mark that begins one of these. -/
def codeChars (m : Mode) : List Char → List Char
  | [] => []
  | c :: cs =>
    let read := m.reading c
    if read = .code then c :: codeChars (read.afterCode c cs) cs
    else codeChars (read.afterCode c cs) cs

/-- The braces of a text match: in code, no more are closed at any place than have been opened
before it, and in the end as many are closed as opened. -/
structure Balanced (cs : List Char) : Prop where
  never_below : ∀ front, front <+: codeChars .code cs → front.count '\x7d' ≤ front.count '\x7b'
  ends_even : (codeChars .code cs).count '\x7d' = (codeChars .code cs).count '\x7b'

/-- A closing brace begins no comment with the character before it. -/
theorem Mode.afterCode_append_brace (m : Mode) (c : Char) (cs rest : List Char) :
    m.afterCode c (cs ++ '\x7d' :: rest) = m.afterCode c cs := by
  cases cs with
  | nil => simp [afterCode]
  | cons d ds => rfl

section

variable {m : Mode} {depth : Nat} {rest : List Char}

/-- An empty body is closed at once: by a brace in code, with no other brace open. -/
theorem closes_nil (h : bodySpan? m depth ('\x7d' :: rest) = some ([], rest)) :
    m.reading '\x7d' = .code ∧ depth = 0 := by
  rw [bodySpan?] at h
  split at h
  · next hclose => exact ⟨hclose.1, hclose.2.2⟩
  · obtain ⟨p, -, hp⟩ := Option.map_eq_some_iff.1 h
    cases hp

/-- The first character of a body does not close it, and the rest is closed where the body is. -/
theorem closes_cons {c : Char} {cs : List Char}
    (h : bodySpan? m depth (c :: cs ++ '\x7d' :: rest) = some (c :: cs, rest)) :
    ¬ (m.reading c = .code ∧ c = '\x7d' ∧ depth = 0) ∧
      bodySpan? ((m.reading c).afterCode c cs)
        (if m.reading c = .code then braceDepth depth c else depth) (cs ++ '\x7d' :: rest) =
          some (cs, rest) := by
  rw [List.cons_append, bodySpan?, Mode.afterCode_append_brace] at h
  split at h
  · cases h
  · next hopen =>
    obtain ⟨p, hp, heq⟩ := Option.map_eq_some_iff.1 h
    obtain ⟨rfl, rfl⟩ : p.1 = cs ∧ p.2 = rest := by simpa using heq
    exact ⟨hopen, hp⟩

/-- The brace that is found to close a body is code. -/
theorem codeChars_append_brace {body : List Char}
    (h : bodySpan? m depth (body ++ '\x7d' :: rest) = some (body, rest)) :
    codeChars m (body ++ ['\x7d']) = codeChars m body ++ ['\x7d'] := by
  induction body generalizing m depth with
  | nil => simp [codeChars, (closes_nil h).1]
  | cons c cs ih =>
    rw [List.cons_append, codeChars, codeChars, Mode.afterCode_append_brace]
    simp only [ih (closes_cons h).2]
    split <;> rfl

/-- A brace is counted where it moves the depth. -/
theorem count_add_braceDepth {c : Char} (h : c = '\x7d' → depth ≠ 0) (cs : List Char) :
    (c :: cs).count '\x7d' + (braceDepth depth c + cs.count '\x7b') =
      cs.count '\x7d' + (depth + (c :: cs).count '\x7b') := by
  by_cases hleft : c = '\x7b'
  · subst hleft
    simp [braceDepth]
    omega
  · by_cases hright : c = '\x7d'
    · have hpos := h hright
      subst hright
      simp [braceDepth]
      omega
    · simp [braceDepth, hleft, hright]

/-- **Up to the brace that is found to close a body, every brace that is closed was opened**, by the
body or as one of the `depth` braces open in front of it, and in the end all of them are closed. -/
theorem count_of_bodySpan? {body : List Char}
    (h : bodySpan? m depth (body ++ '\x7d' :: rest) = some (body, rest)) :
    (∀ front, front <+: codeChars m body → front.count '\x7d' ≤ depth + front.count '\x7b') ∧
      (codeChars m body).count '\x7d' = depth + (codeChars m body).count '\x7b' := by
  induction body generalizing m depth with
  | nil =>
    obtain ⟨-, rfl⟩ := closes_nil h
    refine ⟨fun front hfront => ?_, rfl⟩
    obtain rfl : front = [] := List.prefix_nil.1 hfront
    exact Nat.le_refl 0
  | cons c cs ih =>
    obtain ⟨hopen, hrest⟩ := closes_cons h
    obtain ⟨hbelow, heven⟩ := ih hrest
    rw [codeChars]
    by_cases hread : m.reading c = .code
    · have hdepth : c = '\x7d' → depth ≠ 0 := fun hc hzero => hopen ⟨hread, hc, hzero⟩
      simp only [if_pos hread] at hbelow heven ⊢
      refine ⟨fun front hfront => ?_, ?_⟩
      · rcases List.prefix_cons_iff.1 hfront with rfl | ⟨front', rfl, hfront'⟩
        · simp
        · have hcount := count_add_braceDepth hdepth front'
          have hle := hbelow front' hfront'
          omega
      · have hcount := count_add_braceDepth hdepth
          (codeChars ((m.reading c).afterCode c cs) cs)
        omega
    · simp only [if_neg hread] at hbelow heven ⊢
      exact ⟨hbelow, heven⟩

end

theorem BlockText.balanced_body (t : BlockText) : Balanced t.body := by
  obtain ⟨hbelow, heven⟩ := count_of_bodySpan? (t.closes [])
  rw [Nat.zero_add] at heven
  exact ⟨fun front hfront => by simpa using hbelow front hfront, heven⟩

/-! ### One block -/

/-- The block is written in the text, at its own place. -/
structure Block.SoundIn (source : String) (b : Block) : Prop where
  /-- Its text is cut out of the source at its span. -/
  text_slice : b.span.slice? source.toList = some b.text.toList
  /-- It is a keyword, blanks, a name, perhaps more blanks, and a body in braces. -/
  parts : ∃ gap inner : List Char, gap ≠ [] ∧ (∀ c ∈ gap, isAsciiSpace c = true) ∧
    isIdent b.name.toList = true ∧ (∀ c ∈ inner, isAsciiSpace c = true) ∧
    b.text.toList = b.kind.keyword.toList ++ gap ++ b.name.toList ++ inner ++
      '\x7b' :: (b.body.toList ++ ['\x7d'])
  /-- Its body is cut out of the source where the body begins. -/
  body_slice : Span.slice? ⟨b.bodyStart, b.bodyStart + byteLength b.body.toList⟩ source.toList =
    some b.body.toList
  /-- The closing brace is the last byte of the block. -/
  stop_eq : b.span.stop = b.bodyStart + byteLength b.body.toList + 1
  balanced : Balanced b.body.toList
  /-- The closing brace stands neither in a string literal nor in a comment of the body. -/
  closing : codeChars .code (b.body.toList ++ ['\x7d']) =
    codeChars .code b.body.toList ++ ['\x7d']

/-- **A block that stands in a text is sound** at its place. -/
theorem BlockText.soundIn_blockAt (t : BlockText) {source : String} {before after : List Char}
    (h : source.toList = before ++ (t.text ++ after)) :
    (t.blockAt (byteLength before)).SoundIn source where
  text_slice := by
    rw [slice?_eq_some_iff]
    refine ⟨before, after, ?_, ?_⟩
    · rw [blockAt, String.toList_ofList, h]
    · rw [blockAt, String.toList_ofList, byteLength_append]
  parts := by
    refine ⟨t.gap, t.inner, t.gap_ne_nil, t.isAsciiSpace_gap, ?_, t.isAsciiSpace_inner, ?_⟩
    · rw [blockAt, String.toList_ofList]
      exact t.isIdent_name
    · simp [blockAt, text, head]
  body_slice := by
    rw [slice?_eq_some_iff]
    refine ⟨before ++ t.head, '\x7d' :: after, ?_, ?_⟩
    · rw [blockAt, String.toList_ofList, h, text]
      simp
    · simp [blockAt, Nat.add_assoc]
  stop_eq := by
    have hbrace : Char.utf8Size '\x7d' = 1 := by decide
    simp [blockAt, text, hbrace]
    omega
  balanced := by
    rw [blockAt, String.toList_ofList]
    exact t.balanced_body
  closing := by
    rw [blockAt, String.toList_ofList]
    exact codeChars_append_brace (t.closes [])

/-- **Every block that is found is sound.** -/
theorem soundIn_of_mem_blocks {source : String} {b : Block} (h : b ∈ blocks source) :
    b.SoundIn source := by
  obtain ⟨before, t, after, hsource, rfl⟩ := exists_blockText_of_mem_blocksFrom h
  rw [Nat.zero_add]
  exact t.soundIn_blockAt hsource

/-! ### All blocks -/

/-- The stretch ends before the other begins. -/
def Span.Before (s t : Span) : Prop := s.stop ≤ t.start

/-- The stretches have no byte in common. -/
def Span.Apart (s t : Span) : Prop := s.Before t ∨ t.Before s

/-- No block begins in front of the place from which blocks are searched for. -/
theorem le_start_of_mem_blocksFrom {m : Mode} {depth : Nat} {afterIdent : Bool} {pos : Nat}
    {cs : List Char} {b : Block} (h : b ∈ blocksFrom m depth afterIdent pos cs) :
    pos ≤ b.span.start := by
  obtain ⟨before, t, after, -, rfl⟩ := exists_blockText_of_mem_blocksFrom h
  exact Nat.le_add_right _ _

theorem pairwise_before_blocksFrom (m : Mode) (depth : Nat) (afterIdent : Bool) (pos : Nat)
    (cs : List Char) :
    (blocksFrom m depth afterIdent pos cs).Pairwise fun a b => a.span.Before b.span := by
  induction m, depth, afterIdent, pos, cs using blocksFrom_induction with
  | nil m depth afterIdent pos =>
    rw [blocksFrom]
    exact List.Pairwise.nil
  | word m depth afterIdent pos c cs hbegin hword ih =>
    rw [blocksFrom_word hbegin, hword, blocksBehind]
    exact ih
  | block m depth afterIdent pos c cs b after hbegin hword ih =>
    -- the search goes on where the block ends
    rw [blocksFrom_word hbegin, hword, blocksBehind]
    exact List.Pairwise.cons (fun b' hb' => le_start_of_mem_blocksFrom hb') ih
  | char m depth afterIdent pos c cs hbegin ih =>
    rw [blocksFrom_char hbegin]
    exact ih

/-- **Blocks come in the order of their places**, each behind the end of the one before. -/
theorem pairwise_before_blocks (source : String) :
    (blocks source).Pairwise fun a b => a.span.Before b.span :=
  pairwise_before_blocksFrom .code 0 false 0 source.toList

/-- The blocks apart by kind are all blocks. -/
theorem perm_extract (source : String) :
    ((Blocks.extract source).models ++ (Blocks.extract source).enums).Perm (blocks source) := by
  have henums : (blocks source).filter (·.kind == .enumeration) =
      (blocks source).filter fun b => !(b.kind == .model) := by
    refine List.filter_congr fun b _ => ?_
    cases b.kind <;> rfl
  rw [Blocks.extract, henums]
  exact List.filter_append_perm _ _

/-- **Blocks are found soundly.** Each is written where it is found, its closing brace is the
partner of its opening one, and no two have a byte in common, models and enums taken together; each
kind comes in the order of the places. -/
theorem Blocks.extract_sound (source : String) :
    (∀ b ∈ (extract source).models ++ (extract source).enums, b.SoundIn source) ∧
      ((extract source).models ++ (extract source).enums).Pairwise
        (fun a b => a.span.Apart b.span) ∧
      (extract source).models.Pairwise (fun a b => a.span.Before b.span) ∧
      (extract source).enums.Pairwise (fun a b => a.span.Before b.span) := by
  have hperm := perm_extract source
  have hordered := pairwise_before_blocks source
  refine ⟨fun b hb => soundIn_of_mem_blocks (hperm.mem_iff.1 hb), ?_, hordered.filter _,
    hordered.filter _⟩
  have hsymm : ∀ {a b : Block}, a.span.Apart b.span → b.span.Apart a.span := Or.symm
  rw [hperm.pairwise_iff hsymm]
  exact hordered.imp Or.inl

end Sieve.Schema
