import Sieve.Proofs.Schema.BareBlocks
import Sieve.Proofs.Schema.CommentWords

/-!
# Comments in the bodies of blocks

A comment in the body of a block can be left out up to its line break, and the schema declares the
same. This holds for comments that begin outside of string literals and outside of brackets. The
text of the comment may be anything: quotes, braces, brackets, question marks.

The search for blocks and the search for words each decide for themselves what a comment is. The
former counts two slashes at any depth, the latter only outside of brackets. For the search for
blocks, three things can happen to the text in front of the comment: it holds the brace that closes
a block, and then the comment is not looked at; it ends in the body of a block, and then the body
has the comment in it and ends behind it; or no brace closes the block, with the comment or without.

## Main definitions

* `Mode.run` — the mode after a text
* `Comment.InBody` — a comment stands in the body of a block, outside of brackets

## Main results

* `bodySpan?_comment` — what a comment does to the end of a body
* `Block.Holds.behind_block`, `Block.Holds.in_block` — what it does to a block that ends in front of
  it, and to one that ends behind it
* `map_bare_blocksFrom_comment` — what it does to the blocks of a text
* `unplaced_parse_comment` — a schema declares the same without the comment
-/

namespace Sieve.Schema

open Sieve.Text

/-! ### Modes -/

/-- The mode after a text with `rest` behind it, where two slashes in code begin a comment. -/
def Mode.run (m : Mode) : List Char → List Char → Mode
  | [], _ => m
  | c :: cs, rest => ((m.reading c).afterCode c (cs ++ rest)).run cs rest

namespace Mode

theorem run_append (m : Mode) (xs ys rest : List Char) :
    m.run (xs ++ ys) rest = (m.run xs (ys ++ rest)).run ys rest := by
  induction xs generalizing m with
  | nil => rfl
  | cons c cs ih => rw [List.cons_append, run, run, ih, List.append_assoc]

/-- A text without quotes and slashes leaves code as code. -/
theorem run_code_of_forall {cs : List Char} (h : ∀ c ∈ cs, c ≠ '"' ∧ c ≠ '/') (rest : List Char) :
    code.run cs rest = code := by
  induction cs with
  | nil => rfl
  | cons c cs ih =>
    obtain ⟨⟨hquote, hslash⟩, hcs⟩ := List.forall_mem_cons.1 h
    have hafter : (code.reading c).afterCode c (cs ++ rest) = code := by
      simp [reading, afterCode, afterWord, hquote, hslash]
    rw [run, hafter, ih hcs]

end Mode

/-! ### The end of a body -/

/-- A character that does not close the body is part of it. -/
theorem bodySpan?_cons {m : Mode} {depth : Nat} {c : Char}
    (h : ¬ (m.reading c = .code ∧ c = '\x7d' ∧ depth = 0)) (cs : List Char) :
    bodySpan? m depth (c :: cs) =
      (bodySpan? ((m.reading c).afterCode c cs)
        (if m.reading c = .code then braceDepth depth c else depth) cs).map
          fun p => (c :: p.1, p.2) := by
  rw [bodySpan?]
  exact if_neg h

section

variable (k : Comment) (rest : List Char)

/-- A comment is part of the body that it stands in. -/
theorem bodySpan?_comment_append (depth : Nat) :
    bodySpan? .code depth (k.chars ++ '\n' :: rest) =
      (bodySpan? .code depth ('\n' :: rest)).map fun p => (k.chars ++ p.1, p.2) := by
  have hbreak : bodySpan? .comment depth ('\n' :: rest) = bodySpan? .code depth ('\n' :: rest) := by
    rw [bodySpan?, bodySpan?]
    rfl
  have htext : ∀ cs : List Char, '\n' ∉ cs → bodySpan? .comment depth (cs ++ '\n' :: rest) =
      (bodySpan? .code depth ('\n' :: rest)).map fun p => (cs ++ p.1, p.2) := by
    intro cs
    induction cs with
    | nil => simp [hbreak]
    | cons c cs ih =>
      intro hcs
      obtain ⟨hc, hcs⟩ := not_or.1 (mt List.mem_cons.2 hcs)
      have hread : Mode.comment.reading c = .comment := by simp [Mode.reading, Ne.symm hc]
      have hafter : Mode.comment.afterCode c (cs ++ '\n' :: rest) = .comment := by
        simp [Mode.afterCode, Mode.afterWord]
      rw [List.cons_append, bodySpan?_cons (by simp [hread]), hread, hafter, if_neg (by simp),
        ih hcs, Option.map_map]
      rfl
  have hslash : bodySpan? .code depth (k.chars ++ '\n' :: rest) =
      (bodySpan? .comment depth ('/' :: k.text ++ '\n' :: rest)).map
        fun p => ('/' :: p.1, p.2) := by
    rw [Comment.chars, List.cons_append, bodySpan?_cons (by simp)]
    rfl
  rw [hslash, htext ('/' :: k.text) (by simp [k.newline_notMem]), Option.map_map]
  rfl

variable {k rest}

/-- Where a comment begins, none has begun one character before, so that nothing changes there when
the comment is left out. -/
theorem afterCode_append_comment {m : Mode} {c : Char} {cs : List Char}
    (h : (m.afterCode c (cs ++ (k.chars ++ '\n' :: rest))).run cs (k.chars ++ '\n' :: rest) =
      .code) :
    m.afterCode c (cs ++ (k.chars ++ '\n' :: rest)) = m.afterCode c (cs ++ '\n' :: rest) := by
  cases cs with
  | nil =>
    rw [Mode.afterCode, Mode.afterCode, if_neg, if_neg (by simp)]
    rintro ⟨rfl, rfl, -⟩
    simp [Mode.afterCode, Mode.run, Comment.chars] at h
  | cons d ds => exact Mode.afterCode_congr m c rfl

/-- **What a comment does to the end of a body**: either the body ends in front of it, or it ends
behind it and the comment is part of it, if it ends at all. -/
theorem bodySpan?_comment {m : Mode} {cs : List Char}
    (h : m.run cs (k.chars ++ '\n' :: rest) = .code) (depth : Nat) :
    (∃ body after, cs = body ++ '\x7d' :: after ∧
      Mode.code.run after (k.chars ++ '\n' :: rest) = .code ∧
      bodySpan? m depth (cs ++ (k.chars ++ '\n' :: rest)) =
        some (body, after ++ (k.chars ++ '\n' :: rest)) ∧
      bodySpan? m depth (cs ++ '\n' :: rest) = some (body, after ++ '\n' :: rest)) ∨
    ∃ depth', bodySpan? m depth (cs ++ (k.chars ++ '\n' :: rest)) =
        (bodySpan? .code depth' ('\n' :: rest)).map (fun p => (cs ++ (k.chars ++ p.1), p.2)) ∧
      bodySpan? m depth (cs ++ '\n' :: rest) =
        (bodySpan? .code depth' ('\n' :: rest)).map fun p => (cs ++ p.1, p.2) := by
  induction cs generalizing m depth with
  | nil =>
    obtain rfl : m = .code := h
    exact .inr ⟨depth, bodySpan?_comment_append k rest depth, by simp⟩
  | cons c cs ih =>
    rw [Mode.run] at h
    by_cases hclose : m.reading c = .code ∧ c = '\x7d' ∧ depth = 0
    · obtain ⟨hread, rfl, rfl⟩ := hclose
      refine .inl ⟨[], cs, rfl, ?_, ?_, ?_⟩
      · rw [hread] at h
        exact h
      · rw [List.cons_append, bodySpan?]
        exact if_pos ⟨hread, rfl, rfl⟩
      · rw [List.cons_append, bodySpan?]
        exact if_pos ⟨hread, rfl, rfl⟩
    · rw [List.cons_append, List.cons_append, bodySpan?_cons hclose, bodySpan?_cons hclose,
        ← afterCode_append_comment h]
      rcases ih h (if m.reading c = .code then braceDepth depth c else depth) with
        ⟨body, after, hcs, hrun, hwith, hwithout⟩ | ⟨depth', hwith, hwithout⟩
      · refine .inl ⟨c :: body, after, by rw [hcs, List.cons_append], hrun, ?_, ?_⟩
        · rw [hwith, Option.map_some]
        · rw [hwithout, Option.map_some]
      · refine .inr ⟨depth', ?_, ?_⟩
        · rw [hwith, Option.map_map]
          rfl
        · rw [hwithout, Option.map_map]
          rfl

end

/-! ### Blocks in front of a brace -/

namespace BlockText

/-- The block with another body. -/
def withBody (t : BlockText) {body rest : List Char}
    (h : bodySpan? .code 0 (body ++ '\x7d' :: rest) = some (body, rest)) : BlockText :=
  { t with body := body, closes := bodySpan?_of_closed h }

/-- The block up to the brace that opens its body, without the brace. -/
def opening (t : BlockText) : List Char := t.kind.keyword.toList ++ t.gap ++ t.name ++ t.inner

theorem head_eq (t : BlockText) : t.head = t.opening ++ ['\x7b'] := rfl

theorem bodyStart_blockAt (t : BlockText) (pos : Nat) :
    (t.blockAt pos).bodyStart = pos + (byteLength t.opening + 1) := by
  rw [blockAt, head_eq, byteLength_append]
  rfl

theorem stop_blockAt (t : BlockText) (pos : Nat) :
    (t.blockAt pos).span.stop = pos + (byteLength t.opening + 1 + byteLength t.body + 1) := by
  rw [blockAt, text, head_eq, byteLength_append, byteLength_append, byteLength_append]
  rfl

/-- In front of its brace, a block has blanks and characters of identifiers only. -/
theorem blank_or_isIdentRest_of_mem_opening (t : BlockText) {c : Char} (h : c ∈ t.opening) :
    isAsciiSpace c = true ∨ isIdentRest c = true := by
  rw [opening] at h
  simp only [List.mem_append] at h
  rcases h with ((h | h) | h) | h
  · exact .inr (isIdentRest_of_isIdent t.kind.isIdent_keyword c h)
  · exact .inl (t.isAsciiSpace_gap c h)
  · exact .inr (isIdentRest_of_isIdent t.isIdent_name c h)
  · exact .inl (t.isAsciiSpace_inner c h)

theorem ne_of_mem_opening (t : BlockText) {c : Char} (h : c ∈ t.opening) :
    c ≠ '"' ∧ c ≠ '/' ∧ c ≠ '\x7b' := by
  refine ⟨?_, ?_, ?_⟩ <;> rintro rfl <;>
    rcases t.blank_or_isIdentRest_of_mem_opening h with h | h <;> revert h <;> decide

/-- What stands in front of the first brace is what opens the block. -/
theorem opening_eq_of_text_append {t : BlockText} {pre after : List Char} (ws : List Char)
    (hpre : '\x7b' ∉ pre) (h : pre ++ '\x7b' :: ws = t.text ++ after) :
    pre = t.opening ∧ ws = t.body ++ '\x7d' :: after := by
  have htext : t.text ++ after = t.opening ++ '\x7b' :: (t.body ++ '\x7d' :: after) := by
    simp [text, head_eq]
  have hopening : '\x7b' ∉ t.opening := fun hmem => (t.ne_of_mem_opening hmem).2.2 rfl
  exact append_cons_inj_of_first hpre hopening (h.trans htext)

/-- A block whose body is another text up to its closing brace. -/
theorem ofWord?_withBody (t : BlockText) (pos : Nat) {c : Char} {cs ws body after : List Char}
    (hcs : c :: cs = t.opening ++ '\x7b' :: ws) (h : bodySpan? .code 0 ws = some (body, after)) :
    ∃ hbody : bodySpan? .code 0 (body ++ '\x7d' :: after) = some (body, after),
      Block.ofWord? pos c cs = some ((t.withBody hbody).blockAt pos, after) := by
  have hws := append_of_bodySpan? h
  subst hws
  refine ⟨h, ofWord?_eq_some_iff.2 ⟨t.withBody h, ?_, rfl⟩⟩
  rw [hcs]
  simp [withBody, text, head, opening]

end BlockText

/-! ### Leaving a comment out -/

section

variable {k : Comment} {rest : List Char} {m : Mode} {pos : Nat} {c : Char} {pre ws : List Char}

/-- Behind a text without quotes and slashes, code is read on as code. -/
theorem Mode.run_of_forall (hread : m.reading c = code)
    (hpre : ∀ d ∈ c :: pre, d ≠ '"' ∧ d ≠ '/') (ws : List Char) :
    m.run (c :: pre ++ ws) rest = code.run ws rest := by
  have hcode : m.run (c :: pre ++ ws) rest = code.run (c :: pre ++ ws) rest := by
    rw [List.cons_append, run, run, hread, reading_code]
  rw [hcode, run_append, run_code_of_forall hpre]

/-- Behind the brace that opens a block, the text is read as code. -/
theorem Mode.run_of_opening {t : BlockText} (ws : List Char) (hread : m.reading c = code)
    (hopening : c :: pre = t.opening) (h : m.run (c :: pre ++ '\x7b' :: ws) rest = code) :
    code.run ws rest = code := by
  have hplain : ∀ d ∈ c :: pre, d ≠ '"' ∧ d ≠ '/' := by
    intro d hd
    rw [hopening] at hd
    exact ⟨(t.ne_of_mem_opening hd).1, (t.ne_of_mem_opening hd).2.1⟩
  rw [run_of_forall hread hplain] at h
  exact h

/-- A word that begins no block begins none when the comment is left out. -/
theorem ofWord?_without_eq_none (ws : List Char) (hread : m.reading c = .code)
    (hpre : '\x7b' ∉ c :: pre)
    (hrun : m.run (c :: pre ++ '\x7b' :: ws) (k.chars ++ '\n' :: rest) = .code)
    (h : Block.ofWord? pos c (pre ++ '\x7b' :: (ws ++ (k.chars ++ '\n' :: rest))) = none) :
    Block.ofWord? pos c (pre ++ '\x7b' :: (ws ++ '\n' :: rest)) = none := by
  refine Option.eq_none_iff_forall_ne_some.2 fun p hsome => ?_
  obtain ⟨t, htext, -⟩ := BlockText.ofWord?_eq_some_iff.1 hsome
  obtain ⟨hopening, hws⟩ := BlockText.opening_eq_of_text_append _ hpre htext
  -- the block that begins without the comment ends with it too
  obtain ⟨q, hq⟩ : ∃ q, bodySpan? .code 0 (ws ++ (k.chars ++ '\n' :: rest)) = some q := by
    rcases bodySpan?_comment (Mode.run_of_opening ws hread hopening hrun) 0 with
      ⟨body, after, -, -, hwith, -⟩ | ⟨depth, hwith, hwithout⟩
    · exact ⟨_, hwith⟩
    · rw [hws, t.closes, eq_comm] at hwithout
      obtain ⟨q, hq, -⟩ := Option.map_eq_some_iff.1 hwithout
      exact ⟨_, by rw [hwith, hq, Option.map_some]⟩
  have hcs : c :: (pre ++ '\x7b' :: (ws ++ (k.chars ++ '\n' :: rest))) =
      t.opening ++ '\x7b' :: (ws ++ (k.chars ++ '\n' :: rest)) := by
    rw [← hopening, List.cons_append]
  obtain ⟨_, hwith⟩ := t.ofWord?_withBody pos hcs hq
  rw [h] at hwith
  cases hwith

end

/-- The comment `k` stands in the body of the block `b`, outside of string literals and other
comments: `head` ends where the body begins, and `before` where the comment does. The text begins at
byte `pos` and is read in mode `m` there. -/
structure Block.Holds (b : Block) (k : Comment) (m : Mode) (pos : Nat)
    (head before rest : List Char) : Prop where
  code : m.run (head ++ before) (k.chars ++ '\n' :: rest) = .code
  start : b.bodyStart = pos + byteLength head
  stop : pos + byteLength (head ++ before) < b.span.stop

section

variable {k : Comment} {rest before : List Char} {b : Block} {m : Mode} {depth : Nat}
  {afterIdent : Bool} {pos : Nat} {head : List Char}

/-- The comment stands there too if the text begins further on. -/
theorem Block.Holds.drop (xs : List Char) (h : b.Holds k m pos (xs ++ head) before rest) :
    b.Holds k (m.run xs (head ++ before ++ (k.chars ++ '\n' :: rest))) (pos + byteLength xs)
      head before rest where
  code := by rw [← Mode.run_append, ← List.append_assoc]; exact h.code
  start := by rw [h.start, byteLength_append, Nat.add_assoc]
  stop := by
    have hstop := h.stop
    rw [List.append_assoc, byteLength_append] at hstop
    omega

/-- It stands there too if the text begins behind its first word. -/
theorem Block.Holds.behind_word {c : Char} {pre hs : List Char}
    (hbegin : BeginsWord m depth afterIdent c)
    (h : b.Holds k m pos (c :: pre ++ '\x7b' :: hs) before rest) :
    b.Holds k .code (pos + byteLength (c :: pre.takeWhile isIdentRest))
      (pre.dropWhile isIdentRest ++ '\x7b' :: hs) before rest := by
  have hcut : c :: pre ++ '\x7b' :: hs = c :: pre.takeWhile isIdentRest ++
      (pre.dropWhile isIdentRest ++ '\x7b' :: hs) := by
    rw [List.cons_append, List.cons_append, ← List.append_assoc, List.takeWhile_append_dropWhile]
  have hplain : ∀ d ∈ c :: pre.takeWhile isIdentRest, d ≠ '"' ∧ d ≠ '/' := by
    refine List.forall_mem_cons.2 ⟨?_, fun d hd => ?_⟩
    · exact ⟨ne_of_isIdentStart hbegin.2.2.1 rfl, ne_of_isIdentStart hbegin.2.2.1 rfl⟩
    · have hd := List.mem_takeWhile_imp hd
      exact ⟨ne_of_isIdentRest hd rfl, ne_of_isIdentRest hd rfl⟩
  rw [hcut] at h
  have hdropped := h.drop _
  rw [← List.append_nil (c :: pre.takeWhile isIdentRest), Mode.run_of_forall hbegin.1 hplain,
    List.append_nil] at hdropped
  exact hdropped

/-- The brace that opens the body stands in front of the comment. -/
theorem Block.Holds.brace_mem (h : b.Holds k m pos head before rest) {ys : List Char}
    (hb : b ∈ blocksFrom m depth afterIdent pos (head ++ ys)) : '\x7b' ∈ head := by
  obtain ⟨front, t, after, hcs, rfl⟩ := exists_blockText_of_mem_blocksFrom hb
  have hlength : byteLength (front ++ t.head) = byteLength head := by
    have hsum : pos + byteLength front + byteLength t.head = pos + byteLength head := h.start
    rw [byteLength_append]
    omega
  have htext : front ++ t.head ++ (t.body ++ '\x7d' :: after) = head ++ ys := by
    rw [hcs, BlockText.text]
    simp
  obtain ⟨zs, rfl, -⟩ := exists_append_of_byteLength_le htext hlength.le
  simp [BlockText.head_eq]

/-- A word ends in front of a brace that stands behind it. -/
theorem exists_split_at_brace {m : Mode} {depth : Nat} {afterIdent : Bool} {c : Char}
    {cs head ys : List Char} (hbegin : BeginsWord m depth afterIdent c) (hbrace : '\x7b' ∈ head)
    (h : c :: cs = head ++ ys) :
    ∃ pre hs, head = c :: pre ++ '\x7b' :: hs ∧ '\x7b' ∉ c :: pre ∧
      cs = pre ++ '\x7b' :: (hs ++ ys) := by
  obtain ⟨pre, hs, rfl, hpre⟩ := List.eq_append_cons_of_mem hbrace
  cases pre with
  | nil =>
    obtain ⟨rfl, -⟩ := List.cons.inj h
    exact absurd hbegin.2.2.1 (by decide)
  | cons d pre =>
    obtain ⟨rfl, rfl⟩ : c = d ∧ cs = pre ++ '\x7b' :: (hs ++ ys) := by simpa using h
    exact ⟨pre, hs, rfl, hpre, rfl⟩

theorem WordPlace.run_congr (p : WordPlace) (cs : List Char) {rest rest' : List Char}
    (h : rest.head? = rest'.head?) : p.run cs rest = p.run cs rest' := by
  induction cs generalizing p with
  | nil => rfl
  | cons c cs ih =>
    have hhead : (cs ++ rest).head? = (cs ++ rest').head? := by
      rw [List.head?_append, List.head?_append, h]
    have hstart : startsComment c (cs ++ rest) = startsComment c (cs ++ rest') := by
      rw [startsComment, startsComment, hhead]
    rw [run, run, after_congr hstart, ih]

/-- The body of a block begins behind the place from which the block is searched for. -/
theorem le_bodyStart_of_mem_blocksFrom {cs : List Char}
    (hb : b ∈ blocksFrom m depth afterIdent pos cs) : pos ≤ b.bodyStart := by
  obtain ⟨front, t, after, -, rfl⟩ := exists_blockText_of_mem_blocksFrom hb
  rw [BlockText.blockAt]
  simp only
  omega

/-- **If a block ends in front of the comment**, it is found without the comment too, and the
comment stands in the body of a block behind it. -/
theorem Block.Holds.behind_block {t : BlockText} {c : Char} {pre hs behind : List Char}
    (hopening : c :: pre = t.opening) (hfront : hs ++ before = t.body ++ '\x7d' :: behind)
    (hcode : Mode.code.run behind (k.chars ++ '\n' :: rest) = .code)
    (h : b.Holds k m pos (c :: pre ++ '\x7b' :: hs) before rest)
    (hb : b ∈ t.blockAt pos :: blocksFrom .code 0 false (t.blockAt pos).span.stop
      (behind ++ (k.chars ++ '\n' :: rest))) :
    Block.ofWord? pos c (pre ++ '\x7b' :: (hs ++ (before ++ '\n' :: rest))) =
        some (t.blockAt pos, behind ++ '\n' :: rest) ∧
      ∃ head', behind = head' ++ before ∧
        b ∈ blocksFrom .code 0 false (t.blockAt pos).span.stop
          (head' ++ before ++ (k.chars ++ '\n' :: rest)) ∧
        b.Holds k .code (t.blockAt pos).span.stop head' before rest := by
  have htext : ∀ ys, c :: (pre ++ '\x7b' :: (hs ++ (before ++ ys))) = t.text ++ (behind ++ ys) := by
    intro ys
    rw [← List.append_assoc hs, hfront, ← List.cons_append, hopening, BlockText.text,
      BlockText.head_eq]
    simp
  have hheads : c :: pre ++ '\x7b' :: hs ++ before = t.text ++ behind := by simpa using htext []
  have hstop : (t.blockAt pos).span.stop = pos + byteLength t.text := rfl
  refine ⟨BlockText.ofWord?_eq_some_iff.2 ⟨t, htext _, rfl⟩, ?_⟩
  rcases List.mem_cons.1 hb with rfl | hb
  · -- the block ends in front of the comment, so it is another one that holds it
    have hlt := h.stop
    rw [hheads, byteLength_append, hstop] at hlt
    omega
  · have hle := le_bodyStart_of_mem_blocksFrom hb
    rw [h.start, hstop] at hle
    obtain ⟨head', hhead, rfl⟩ := exists_append_of_byteLength_le hheads.symm (by omega)
    rw [hhead] at h
    have hdropped := h.drop _
    exact ⟨head', rfl, hb, hcode, hdropped.start, hdropped.stop⟩

/-- If a block ends behind the comment, its body begins where the comment says. -/
theorem Block.Holds.eq_nil_of_body {t : BlockText} {pre hs after tail : List Char}
    (hopening : pre = t.opening) (hbody : hs ++ tail = t.body)
    (h : b.Holds k m pos (pre ++ '\x7b' :: hs) before rest)
    (hb : b ∈ t.blockAt pos :: blocksFrom .code 0 false (t.blockAt pos).span.stop after) :
    hs = [] := by
  have hstart := h.start
  rw [hopening, byteLength_append, byteLength_cons, show '\x7b'.utf8Size = 1 from rfl] at hstart
  have hstop := t.stop_blockAt pos
  rw [← hbody, byteLength_append] at hstop
  rcases List.mem_cons.1 hb with rfl | hb
  · rw [t.bodyStart_blockAt] at hstart
    exact eq_nil_of_byteLength_eq_zero (by omega)
  · -- the blocks behind it begin behind the comment
    have hle := le_bodyStart_of_mem_blocksFrom hb
    omega

/-- If the comment stands in the body of the block that a word begins, the word begins a block
without the comment too, and both blocks have the same bare words. -/
theorem BlockText.exists_without_comment {t : BlockText} (pos : Nat) {c : Char} {pre : List Char}
    {q : List Char × List Char} {braces : Nat}
    (hout : (WordPlace.between.run before (k.chars ++ '\n' :: rest)).isOutside = true)
    (hopening : c :: pre = t.opening)
    (hwithout : bodySpan? .code 0 (before ++ '\n' :: rest) = some (before ++ q.1, q.2))
    (hq : bodySpan? .code braces ('\n' :: rest) = some q)
    (hbody : t.body = before ++ (k.chars ++ q.1)) :
    ∃ t' : BlockText, Block.ofWord? pos c (pre ++ '\x7b' :: (before ++ '\n' :: rest)) =
      some (t'.blockAt pos, q.2) ∧ (t'.blockAt pos).bare = (t.blockAt pos).bare := by
  obtain ⟨line, hline⟩ : ∃ line, q.1 = '\n' :: line := by
    rw [bodySpan?_cons (by simp)] at hq
    obtain ⟨r, -, rfl⟩ := Option.map_eq_some_iff.1 hq
    exact ⟨r.1, rfl⟩
  have hcs : c :: (pre ++ '\x7b' :: (before ++ '\n' :: rest)) =
      t.opening ++ '\x7b' :: (before ++ '\n' :: rest) := by
    rw [← hopening, List.cons_append]
  obtain ⟨hclosed, hword⟩ := t.ofWord?_withBody pos hcs hwithout
  refine ⟨t.withBody hclosed, hword, ?_⟩
  have htokens : bareTokens (before ++ '\n' :: line) =
      bareTokens (before ++ (k.chars ++ '\n' :: line)) := by
    refine (bareTokens_comment k ?_).symm
    have hrun : WordPlace.between.run before (k.chars ++ '\n' :: line) =
        WordPlace.between.run before (k.chars ++ '\n' :: rest) := WordPlace.run_congr _ _ rfl
    rw [hrun]
    exact hout
  simp only [blockAt, withBody, Block.bare, String.toList_ofList, hbody, hline, htokens]

/-- **If a block ends behind the comment**, the comment stands in its body. Without the comment its
word begins a block with the same bare words, and the same text is behind it. -/
theorem Block.Holds.in_block {t : BlockText} {c : Char} {pre hs after : List Char} {braces : Nat}
    (hout : (WordPlace.between.run before (k.chars ++ '\n' :: rest)).isOutside = true)
    (hopening : c :: pre = t.opening)
    (hwith : (bodySpan? .code braces ('\n' :: rest)).map
      (fun p => (hs ++ before ++ (k.chars ++ p.1), p.2)) = some (t.body, after))
    (hwithout : bodySpan? .code 0 (hs ++ before ++ '\n' :: rest) =
      (bodySpan? .code braces ('\n' :: rest)).map fun p => (hs ++ before ++ p.1, p.2))
    (h : b.Holds k m pos (c :: pre ++ '\x7b' :: hs) before rest)
    (hb : b ∈ t.blockAt pos :: blocksFrom .code 0 false (t.blockAt pos).span.stop after) :
    ∃ t' : BlockText, Block.ofWord? pos c (pre ++ '\x7b' :: (hs ++ (before ++ '\n' :: rest))) =
      some (t'.blockAt pos, after) ∧ (t'.blockAt pos).bare = (t.blockAt pos).bare := by
  obtain ⟨q, hq, hpair⟩ := Option.map_eq_some_iff.1 hwith
  obtain ⟨hbody, rfl⟩ : hs ++ before ++ (k.chars ++ q.1) = t.body ∧ q.2 = after := by
    simpa using hpair
  rw [List.append_assoc] at hbody
  obtain rfl := h.eq_nil_of_body hopening hbody hb
  rw [hq, Option.map_some] at hwithout
  exact BlockText.exists_without_comment pos hout hopening hwithout hq hbody.symm

/-- **A comment in the body of a block can be left out**, if it stands outside of brackets. -/
theorem map_bare_blocksFrom_comment
    (hout : (WordPlace.between.run before (k.chars ++ '\n' :: rest)).isOutside = true)
    (hb : b ∈ blocksFrom m depth afterIdent pos (head ++ (before ++ (k.chars ++ '\n' :: rest))))
    (h : b.Holds k m pos head before rest) :
    (blocksFrom m depth afterIdent pos (head ++ (before ++ (k.chars ++ '\n' :: rest)))).map
        Block.bare =
      (blocksFrom m depth afterIdent pos (head ++ (before ++ '\n' :: rest))).map Block.bare := by
  obtain ⟨cs, hcs⟩ : ∃ cs, cs = head ++ (before ++ (k.chars ++ '\n' :: rest)) := ⟨_, rfl⟩
  rw [← hcs] at hb ⊢
  induction m, depth, afterIdent, pos, cs using blocksFrom_induction generalizing head with
  | nil m depth afterIdent pos =>
    rw [blocksFrom] at hb
    cases hb
  | word m depth afterIdent pos c cs hbegin hword ih =>
    obtain ⟨pre, hs, rfl, hpre, rfl⟩ := exists_split_at_brace hbegin (h.brace_mem (hcs ▸ hb)) hcs
    have htake := fun ys => takeWhile_append_cons (p := isIdentRest) (c := '\x7b') rfl pre ys
    have hdrop := fun ys => dropWhile_append_cons (p := isIdentRest) (c := '\x7b') rfl pre ys
    have hwithout := ofWord?_without_eq_none (hs ++ before) hbegin.1 hpre
      (by simpa using h.code) (by simpa using hword)
    rw [blocksFrom_word hbegin, hword, blocksBehind, htake, hdrop] at hb
    rw [htake, hdrop] at ih
    have hrest := ih (h.behind_word hbegin) hb (by simp)
    simp only [List.cons_append, List.append_assoc] at hrest hwithout ⊢
    rw [blocksFrom_word hbegin, blocksFrom_word hbegin, hword, hwithout, blocksBehind, blocksBehind,
      htake, htake, hdrop, hdrop, hrest]
  | block m depth afterIdent pos c cs b₀ after hbegin hword ih =>
    obtain ⟨pre, hs, rfl, hpre, rfl⟩ := exists_split_at_brace hbegin (h.brace_mem (hcs ▸ hb)) hcs
    obtain ⟨t, htext, rfl⟩ := BlockText.ofWord?_eq_some_iff.1 hword
    obtain ⟨hopening, hws⟩ := BlockText.opening_eq_of_text_append
      (hs ++ (before ++ (k.chars ++ '\n' :: rest))) hpre (by simpa using htext)
    have hclosed := t.closes after
    rw [← hws, ← List.append_assoc] at hclosed
    have hrun := Mode.run_of_opening (hs ++ before) hbegin.1 hopening (by simpa using h.code)
    rw [blocksFrom_word hbegin, hword, blocksBehind] at hb
    rw [List.cons_append, List.cons_append, List.append_assoc, List.cons_append,
      blocksFrom_word hbegin, blocksFrom_word hbegin, hword]
    rcases bodySpan?_comment hrun 0 with
      ⟨body, behind, hfront, hcode, hwith, -⟩ | ⟨braces, hwith, hwithout⟩
    · -- the block ends in front of the comment
      rw [hwith] at hclosed
      obtain ⟨rfl, rfl⟩ : body = t.body ∧ behind ++ (k.chars ++ '\n' :: rest) = after := by
        simpa using hclosed
      obtain ⟨hfound, head', rfl, hb, hbehind⟩ := h.behind_block hopening hfront hcode hb
      rw [hfound, blocksBehind, blocksBehind, List.map_cons, List.map_cons,
        ih hbehind hb (by simp), List.append_assoc]
    · -- it ends behind the comment, and so it does without the comment
      rw [hwith] at hclosed
      obtain ⟨t', hfound, hbare⟩ := h.in_block hout hopening hclosed hwithout hb
      rw [hfound, blocksBehind, blocksBehind, List.map_cons, List.map_cons, hbare,
        map_bare_blocksFrom _ _ _ _ (t'.blockAt pos).span.stop]
  | char m depth afterIdent pos c cs hbegin ih =>
    obtain ⟨d, head, rfl⟩ := List.exists_cons_of_ne_nil
      (List.ne_nil_of_mem (h.brace_mem (hcs ▸ hb)))
    obtain ⟨rfl, rfl⟩ : c = d ∧ cs = head ++ (before ++ (k.chars ++ '\n' :: rest)) := by
      simpa using hcs
    have hdropped := h.drop [c]
    rw [List.append_assoc] at hdropped
    have hcode := h.code
    rw [List.cons_append, Mode.run] at hcode
    have hafter := afterCode_append_comment hcode
    rw [blocksFrom_char hbegin] at hb
    rw [List.append_assoc, List.append_assoc] at hafter
    rw [List.cons_append, blocksFrom_char hbegin, blocksFrom_char hbegin, ← hafter]
    exact ih hdropped hb rfl

end

/-- **A schema declares the same without a comment** in the body of one of its blocks, if the
comment stands outside of string literals and of brackets. The line break behind it stays. -/
theorem Document.unplaced_parse_comment {k : Comment} {head before rest : List Char} {b : Block}
    (hb : b ∈ blocks (String.ofList (head ++ (before ++ (k.chars ++ '\n' :: rest)))))
    (h : b.Holds k .code 0 head before rest)
    (hout : (WordPlace.between.run before (k.chars ++ '\n' :: rest)).isOutside = true) :
    (parse (String.ofList (head ++ (before ++ '\n' :: rest)))).unplaced =
      (parse (String.ofList (head ++ (before ++ (k.chars ++ '\n' :: rest))))).unplaced := by
  refine (unplaced_parse_congr ?_).symm
  rw [blocks, String.toList_ofList] at hb
  rw [blocks, blocks, String.toList_ofList, String.toList_ofList]
  exact map_bare_blocksFrom_comment hout hb h

/-- The comment holds a quote, a question mark and closing brackets, and stands right behind a
word. -/
theorem Document.unplaced_parse_comment_closers :
    (parse "model A \x7b\n a Int[]\n b Int\n\x7d").unplaced =
      (parse "model A \x7b\n a Int[]// \"?) ] \x7d\n b Int\n\x7d").unplaced := by
  have hb : (⟨.model, "A", "model A \x7b\n a Int[]// \"?) ] \x7d\n b Int\n\x7d",
      "\n a Int[]// \"?) ] \x7d\n b Int\n", ⟨0, 37⟩, 9⟩ : Block) ∈
      blocks "model A \x7b\n a Int[]// \"?) ] \x7d\n b Int\n\x7d" := by
    decide +kernel
  exact @unplaced_parse_comment ⟨" \"?) ] \x7d".toList, by decide⟩ "model A \x7b".toList
    "\n a Int[]".toList " b Int\n\x7d".toList _ hb
    ⟨by decide +kernel, by decide +kernel, by decide +kernel⟩ (by decide +kernel)

/-- **In brackets it need not**: there, the search for words takes a bracket in a comment for one of
the word's, and the fields behind it are lost. -/
theorem Document.fields_lost_to_comment_in_brackets :
    ∃ (k : Comment) (head before rest : List Char) (b : Block),
      b ∈ blocks (String.ofList (head ++ (before ++ (k.chars ++ '\n' :: rest)))) ∧
      b.kind = .model ∧ b.Holds k .code 0 head before rest ∧
      (parse (String.ofList (head ++ (before ++ (k.chars ++ '\n' :: rest))))).models.map
        (fun m => m.fields.map Field.name) = [["a"]] ∧
      (parse (String.ofList (head ++ (before ++ '\n' :: rest)))).models.map
        (fun m => m.fields.map Field.name) = [["a", "b"]] := by
  refine ⟨⟨" (".toList, by decide⟩, "model A \x7b".toList, "\n a Int @x( ".toList,
    " 1)\n b Int\n\x7d".toList, ⟨.model, "A", "model A \x7b\n a Int @x( // (\n 1)\n b Int\n\x7d",
      "\n a Int @x( // (\n 1)\n b Int\n", ⟨0, 38⟩, 9⟩, ?_, rfl, ⟨?_, ?_, ?_⟩, ?_, ?_⟩
  · decide +kernel
  · decide +kernel
  · decide +kernel
  · decide +kernel
  · decide +kernel
  · decide +kernel

end Sieve.Schema
