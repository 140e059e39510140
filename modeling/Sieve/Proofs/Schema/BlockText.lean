import Sieve.Proofs.Schema.BlockSearch
import Sieve.Proofs.Schema.Words
import Sieve.Proofs.Text.Bytes

/-!
# Blocks as they are written

A block is found where its keyword stands, and is read up to the brace that closes its body. Where
that is depends on nothing that stands behind it: a scan looks at most one character ahead, and the
closing brace is still to come. So a block that is written is found, whatever comes behind it, and a
block that is found was written.

## Main definitions

* `BlockText` — a block as it is written
* `BlockText.blockAt` — the block as it is found

## Main results

* `bodySpan?_of_closed` — the end of a body does not depend on what follows
* `BlockText.read?_behindKeyword`, `BlockText.exists_of_read?` — what is read behind a keyword is
  what is written there
* `BlockText.blocksFrom_text_append`, `exists_blockText_of_mem_blocksFrom` — the same for blocks
  with their keywords
-/

namespace Sieve.Schema

open Sieve.Text

/-! ### The end of a body -/

/-- A mode looks at most one character ahead. -/
theorem Mode.afterCode_congr (m : Mode) (c : Char) {cs ds : List Char} (h : cs.head? = ds.head?) :
    m.afterCode c cs = m.afterCode c ds := by
  rw [afterCode, afterCode, h]

/-- **The end of a body does not depend on what follows.** -/
theorem bodySpan?_of_closed {m : Mode} {depth : Nat} {body rest : List Char}
    (h : bodySpan? m depth (body ++ '\x7d' :: rest) = some (body, rest)) (rest' : List Char) :
    bodySpan? m depth (body ++ '\x7d' :: rest') = some (body, rest') := by
  induction body generalizing m depth with
  | nil =>
    rw [List.nil_append, bodySpan?] at h ⊢
    split at h
    · next hclose => rw [if_pos hclose]
    · obtain ⟨p, -, hp⟩ := Option.map_eq_some_iff.1 h
      cases hp
  | cons c cs ih =>
    -- the character ahead is in the body or is its closing brace
    have hhead : (cs ++ '\x7d' :: rest).head? = (cs ++ '\x7d' :: rest').head? := by
      cases cs <;> rfl
    rw [List.cons_append, bodySpan?] at h ⊢
    rw [Mode.afterCode_congr _ c hhead] at h
    split at h
    · cases h
    · next hopen =>
      obtain ⟨p, hp, hcs⟩ := Option.map_eq_some_iff.1 h
      obtain ⟨rfl, rfl⟩ : p.1 = cs ∧ p.2 = rest := by simpa using hcs
      rw [if_neg hopen, ih hp, Option.map_some]

/-! ### Blocks as they are written -/

/-- A block as it is written: a keyword, blanks, a name, perhaps more blanks, and a body in braces.
The body is any text that the brace behind it closes. -/
structure BlockText where
  kind : BlockKind
  /-- The blanks in front of the name. -/
  gap : List Char
  name : List Char
  /-- The blanks behind the name. -/
  inner : List Char
  body : List Char
  gap_ne_nil : gap ≠ []
  isAsciiSpace_gap : ∀ c ∈ gap, isAsciiSpace c = true
  isIdent_name : isIdent name = true
  isAsciiSpace_inner : ∀ c ∈ inner, isAsciiSpace c = true
  closes : ∀ rest, bodySpan? .code 0 (body ++ '\x7d' :: rest) = some (body, rest)

namespace BlockText

/-- The block up to the brace that opens its body. -/
def head (t : BlockText) : List Char :=
  t.kind.keyword.toList ++ t.gap ++ t.name ++ t.inner ++ ['\x7b']

/-- The whole block. -/
def text (t : BlockText) : List Char := t.head ++ t.body ++ ['\x7d']

/-- What stands behind the name, with `rest` behind the block. -/
def behindName (t : BlockText) (rest : List Char) : List Char :=
  t.inner ++ '\x7b' :: (t.body ++ '\x7d' :: rest)

/-- What stands behind the keyword, with `rest` behind the block. -/
def behindKeyword (t : BlockText) (rest : List Char) : List Char :=
  t.gap ++ (t.name ++ t.behindName rest)

/-- The block as it is found at byte `pos`. -/
def blockAt (t : BlockText) (pos : Nat) : Block :=
  ⟨t.kind, String.ofList t.name, String.ofList t.text, String.ofList t.body,
    ⟨pos, pos + byteLength t.text⟩, pos + byteLength t.head⟩

theorem text_append (t : BlockText) (rest : List Char) :
    t.text ++ rest = t.kind.keyword.toList ++ t.behindKeyword rest := by
  simp [text, head, behindKeyword, behindName]

theorem exists_head_name (t : BlockText) :
    ∃ c cs, t.name = c :: cs ∧ isIdentStart c = true ∧ isAsciiSpace c = false := by
  obtain ⟨c, cs, hname, hc, -⟩ := exists_head_of_isIdent t.isIdent_name
  exact ⟨c, cs, hname, hc, isAsciiSpace_of_isIdentRest (isIdentRest_of_isIdentStart hc)⟩

/-- A name ends with a blank or with the brace behind it. -/
theorem isIdentRest_head?_behindName (t : BlockText) (rest : List Char) :
    ∀ c ∈ (t.behindName rest).head?, isIdentRest c = false := by
  intro c hc
  rw [behindName] at hc
  cases hinner : t.inner with
  | nil =>
    rw [hinner] at hc
    obtain rfl : '\x7b' = c := Option.some.inj hc
    decide
  | cons d ds =>
    rw [hinner] at hc
    obtain rfl : d = c := Option.some.inj hc
    have hspace := t.isAsciiSpace_inner d (by rw [hinner]; exact List.mem_cons_self)
    exact isIdentRest_of_isAsciiSpace hspace

/-- **A block is read as it is written**, whatever stands behind it. -/
theorem read?_behindKeyword (t : BlockText) (pos : Nat) (rest : List Char) :
    Block.read? t.kind pos (t.behindKeyword rest) = some (t.blockAt pos, rest) := by
  obtain ⟨c, cs, hname, hc, hspace⟩ := t.exists_head_name
  have hident := isIdentRest_of_isIdent t.isIdent_name
  have hend := t.isIdentRest_head?_behindName rest
  have hbegin : ∀ d ∈ (t.name ++ t.behindName rest).head?, isAsciiSpace d = false := by
    simp [hname, hspace]
  have hopen : ∀ d ∈ ('\x7b' :: (t.body ++ '\x7d' :: rest)).head?, isAsciiSpace d = false := by
    rintro d ⟨⟩
    decide
  have hstart : (t.name ++ t.behindName rest).head?.any isIdentStart = true := by
    rw [hname]
    exact hc
  rw [Block.read?, behindKeyword, takeWhile_append_of_head? t.isAsciiSpace_gap hbegin,
    dropWhile_append_of_head? t.isAsciiSpace_gap hbegin]
  simp only [takeWhile_append_of_head? hident hend, dropWhile_append_of_head? hident hend, hstart,
    t.gap_ne_nil]
  rw [behindName, takeWhile_append_of_head? t.isAsciiSpace_inner hopen,
    dropWhile_append_of_head? t.isAsciiSpace_inner hopen]
  simp [t.closes, blockAt, text, head]

/-- **A block that is read was written.** -/
theorem exists_of_read? {kind : BlockKind} {pos : Nat} {cs rest : List Char} {b : Block}
    (h : Block.read? kind pos cs = some (b, rest)) :
    ∃ t : BlockText, t.kind = kind ∧ cs = t.behindKeyword rest ∧ b = t.blockAt pos := by
  obtain ⟨t, hkind, hcs⟩ : ∃ t : BlockText, t.kind = kind ∧ cs = t.behindKeyword rest := by
    simp only [Block.read?] at h
    split at h
    · cases h
    · next hnamed =>
      split at h
      · next inside hopen =>
        obtain ⟨⟨body, r⟩, hbody, hb⟩ := Option.map_eq_some_iff.1 h
        obtain rfl : r = rest := congrArg Prod.snd hb
        have hinside := append_of_bodySpan? hbody
        subst hinside
        refine ⟨{
          kind := kind
          gap := cs.takeWhile isAsciiSpace
          name := (cs.dropWhile isAsciiSpace).takeWhile isIdentRest
          inner := ((cs.dropWhile isAsciiSpace).dropWhile isIdentRest).takeWhile isAsciiSpace
          body := body
          gap_ne_nil := fun e => hnamed (Or.inl e)
          isAsciiSpace_gap := fun c => List.mem_takeWhile_imp
          isIdent_name := ?_
          isAsciiSpace_inner := fun c => List.mem_takeWhile_imp
          closes := bodySpan?_of_closed hbody }, rfl, ?_⟩
        · exact isIdent_takeWhile (by simpa using fun e => hnamed (Or.inr e))
        · rw [behindKeyword, behindName]
          simp only
          rw [← hopen, List.takeWhile_append_dropWhile, List.takeWhile_append_dropWhile,
            List.takeWhile_append_dropWhile]
      · cases h
  subst hkind hcs
  rw [read?_behindKeyword] at h
  cases h
  exact ⟨t, rfl, rfl, rfl⟩

end BlockText

/-! ### Finding blocks -/

theorem BlockKind.toList_keyword_of_ofKeyword? {kind : BlockKind} {cs : List Char}
    (h : ofKeyword? (String.ofList cs) = some kind) : kind.keyword.toList = cs := by
  rw [ofKeyword?] at h
  have hfound := List.find?_some h
  rw [eq_of_beq hfound, String.toList_ofList]

theorem BlockKind.ofKeyword?_keyword (kind : BlockKind) : ofKeyword? kind.keyword = some kind := by
  cases kind <;> decide

theorem BlockKind.isIdent_keyword (kind : BlockKind) : isIdent kind.keyword.toList = true := by
  cases kind <;> decide

/-- A line break between two blocks is stepped over. -/
theorem blocksFrom_newline (pos : Nat) (cs : List Char) :
    blocksFrom .code 0 false pos ('\n' :: cs) = blocksFrom .code 0 false (pos + 1) cs := by
  rw [blocksFrom]
  rfl

namespace BlockText

/-- A keyword ends with the blank behind it. -/
theorem isIdentRest_head?_behindKeyword (t : BlockText) (rest : List Char) :
    ∀ c ∈ (t.behindKeyword rest).head?, isIdentRest c = false := by
  obtain ⟨d, ds, hgap⟩ := List.exists_cons_of_ne_nil t.gap_ne_nil
  intro c hc
  rw [behindKeyword, hgap] at hc
  obtain rfl : d = c := Option.some.inj hc
  exact isIdentRest_of_isAsciiSpace (t.isAsciiSpace_gap d (by rw [hgap]; exact List.mem_cons_self))

/-- **A word begins the block that is written there**, and no other. -/
theorem ofWord?_eq_some_iff {pos : Nat} {c : Char} {cs after : List Char} {b : Block} :
    Block.ofWord? pos c cs = some (b, after) ↔
      ∃ t : BlockText, c :: cs = t.text ++ after ∧ b = t.blockAt pos := by
  constructor
  · intro h
    obtain ⟨kind, hkind, hread⟩ := Option.bind_eq_some_iff.1 h
    obtain ⟨t, rfl, hcs, hb⟩ := exists_of_read? hread
    refine ⟨t, ?_, hb⟩
    rw [t.text_append, ← hcs, BlockKind.toList_keyword_of_ofKeyword? hkind, List.cons_append,
      List.takeWhile_append_dropWhile]
  · rintro ⟨t, htext, rfl⟩
    obtain ⟨d, ds, hkeyword, -, hrest⟩ := exists_head_of_isIdent t.kind.isIdent_keyword
    rw [t.text_append, hkeyword, List.cons_append] at htext
    obtain ⟨rfl, rfl⟩ := List.cons.inj htext
    have hend := t.isIdentRest_head?_behindKeyword after
    rw [Block.ofWord?, takeWhile_append_of_head? hrest hend, dropWhile_append_of_head? hrest hend,
      ← hkeyword, String.ofList_toList, t.kind.ofKeyword?_keyword]
    exact t.read?_behindKeyword pos after

/-- **A block is found where it is written**, and the search goes on behind it. -/
theorem blocksFrom_text_append (t : BlockText) (pos : Nat) (rest : List Char) :
    blocksFrom .code 0 false pos (t.text ++ rest) =
      t.blockAt pos :: blocksFrom .code 0 false (pos + byteLength t.text) rest := by
  obtain ⟨c, cs, hkeyword, hc, -⟩ := exists_head_of_isIdent t.kind.isIdent_keyword
  have htext : t.text ++ rest = c :: (cs ++ t.behindKeyword rest) := by
    rw [t.text_append, hkeyword, List.cons_append]
  have hbegin : BeginsWord .code 0 false c := ⟨by simp [Mode.reading], rfl, hc, rfl⟩
  rw [htext, blocksFrom_word hbegin, ofWord?_eq_some_iff.2 ⟨t, htext.symm, rfl⟩]
  rfl

end BlockText

/-- **A block that is found is written there.** -/
theorem exists_blockText_of_mem_blocksFrom {m : Mode} {depth : Nat} {afterIdent : Bool} {pos : Nat}
    {cs : List Char} {b : Block} (h : b ∈ blocksFrom m depth afterIdent pos cs) :
    ∃ (before : List Char) (t : BlockText) (after : List Char),
      cs = before ++ (t.text ++ after) ∧ b = t.blockAt (pos + byteLength before) := by
  induction m, depth, afterIdent, pos, cs using blocksFrom_induction with
  | nil m depth afterIdent pos =>
    rw [blocksFrom] at h
    cases h
  | word m depth afterIdent pos c cs hbegin hword ih =>
    rw [blocksFrom_word hbegin, hword, blocksBehind] at h
    obtain ⟨before, t, after, hcs, hb⟩ := ih h
    refine ⟨c :: cs.takeWhile isIdentRest ++ before, t, after, ?_, ?_⟩
    · rw [List.append_assoc, ← hcs, List.cons_append, List.takeWhile_append_dropWhile]
    · rw [hb, byteLength_append, Nat.add_assoc]
  | block m depth afterIdent pos c cs b₀ after₀ hbegin hword ih =>
    obtain ⟨t₀, htext, rfl⟩ := BlockText.ofWord?_eq_some_iff.1 hword
    rw [blocksFrom_word hbegin, hword, blocksBehind] at h
    rcases List.mem_cons.1 h with rfl | h
    · exact ⟨[], t₀, after₀, htext, rfl⟩
    · obtain ⟨before, t, after, hcs, hb⟩ := ih h
      refine ⟨t₀.text ++ before, t, after, ?_, ?_⟩
      · rw [htext, hcs, List.append_assoc]
      · rw [hb, byteLength_append, ← Nat.add_assoc]
        rfl
  | char m depth afterIdent pos c cs hbegin ih =>
    rw [blocksFrom_char hbegin] at h
    obtain ⟨before, t, after, hcs, hb⟩ := ih h
    exact ⟨c :: before, t, after, by rw [hcs, List.cons_append],
      by rw [hb, byteLength_cons, Nat.add_assoc]⟩

/-! ### Texts of one block -/

/-- **A text of one block is that block, as it is written.** -/
theorem exists_blockText_of_blocks {text : String} {b : Block} (h : blocks text = [b])
    (hspan : b.span = ⟨0, byteLength text.toList⟩) :
    ∃ t : BlockText, text.toList = t.text ∧ b = t.blockAt 0 := by
  have hmem : b ∈ blocksFrom .code 0 false 0 text.toList := by
    rw [blocks] at h
    rw [h]
    exact List.mem_cons_self
  obtain ⟨before, t, after, htext, rfl⟩ := exists_blockText_of_mem_blocksFrom hmem
  have hstart : 0 + byteLength before = 0 := congrArg Span.start hspan
  have hstop : 0 + byteLength before + byteLength t.text = byteLength text.toList :=
    congrArg Span.stop hspan
  rw [htext, byteLength_append, byteLength_append] at hstop
  obtain rfl : before = [] := eq_nil_of_byteLength_eq_zero (by omega)
  obtain rfl : after = [] := eq_nil_of_byteLength_eq_zero (by omega)
  exact ⟨t, by rw [htext, List.nil_append, List.append_nil], rfl⟩

end Sieve.Schema
