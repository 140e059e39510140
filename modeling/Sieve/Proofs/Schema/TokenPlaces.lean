import Sieve.Proofs.Schema.CommentWords
import Sieve.Proofs.Schema.FoundBlocks

/-!
# Where words stand

The words and line breaks of a body are cut out of it in turn: each stands where its span says, and
what is left out between them is a gap, blanks with perhaps a comment behind them. So the body is
its tokens laid out with gaps between them, and this is shown once, along the scan. That spans are
in order and cut out the texts of their tokens is then read off the layout.

## Main definitions

* `Token.text`, `Token.span` — a word or a line break as it stands in the body
* `IsGap` — what is left out between two tokens
* `LaidOut` — a text is made of tokens and gaps
* `TokensOf` — the tokens stand in the text, in order, and nothing but gaps is left out

## Main results

* `laidOut_tokensFrom` — a body is made of its tokens and gaps
* `LaidOut.tokensOf` — what the layout says of spans
-/

namespace Sieve.Schema

open Sieve.Text

/-- The text of a token. -/
def Token.text : Token → List Char
  | word w => w.text
  | newline _ => ['\n']

/-- The place of a token. -/
def Token.span : Token → Span
  | word w => w.span
  | newline s => s

/-! ### Gaps -/

/-- A gap with `behind` after it: blanks other than line breaks, and perhaps a comment behind them,
which reaches to the end of its line. -/
inductive IsGap (behind : List Char) : List Char → Prop
  | nil : IsGap behind []
  | comment (k : Comment) (h : ∀ c ∈ behind.head?, c = '\n') : IsGap behind k.chars
  | blank {c : Char} {gap : List Char} (hspace : isAsciiSpace c = true) (hnl : c ≠ '\n')
    (h : IsGap behind gap) : IsGap behind (c :: gap)

/-- A gap does not begin with a line break. -/
theorem IsGap.eq_nil {gap behind : List Char} (h : IsGap behind gap)
    (hhead : ∀ c ∈ (gap ++ behind).head?, c = '\n') : gap = [] := by
  cases h with
  | nil => rfl
  | comment k _ => exact absurd (hhead '/' rfl) (by decide)
  | blank _ hnl _ => exact absurd (hhead _ rfl) hnl

/-! ### Layout -/

/-- The text, which begins at byte `pos`, is made of the tokens in turn, with gaps around them. -/
inductive LaidOut : Nat → List Char → List Token → Prop
  | nil {pos : Nat} {gap : List Char} (hgap : IsGap [] gap) : LaidOut pos gap []
  | cons {pos : Nat} {gap rest : List Char} {t : Token} {ts : List Token}
    (hgap : IsGap (t.text ++ rest) gap) (hne : t.text ≠ [])
    (hspan : t.span = ⟨pos + byteLength gap, pos + byteLength (gap ++ t.text)⟩)
    (h : LaidOut t.span.stop rest ts) : LaidOut pos (gap ++ (t.text ++ rest)) (t :: ts)

namespace LaidOut

variable {pos : Nat} {cs : List Char} {ts : List Token}

/-- A blank in front widens the first gap. -/
theorem blank {c : Char} (hspace : isAsciiSpace c = true) (hnl : c ≠ '\n')
    (h : LaidOut (pos + c.utf8Size) cs ts) : LaidOut pos (c :: cs) ts := by
  cases h with
  | nil hgap => exact .nil (.blank hspace hnl hgap)
  | @cons _ gap rest t ts hgap hne hspan h =>
    refine .cons (.blank hspace hnl hgap) hne ?_ h
    rw [hspan, List.cons_append, byteLength_cons, byteLength_cons]
    simp only [Nat.add_assoc]

/-- A comment in front of a line break, or of the end of the text, is a gap. -/
theorem comment (k : Comment) (hhead : ∀ c ∈ cs.head?, c = '\n')
    (h : LaidOut (pos + byteLength k.chars) cs ts) : LaidOut pos (k.chars ++ cs) ts := by
  cases h with
  | nil hgap =>
    obtain rfl : cs = [] := hgap.eq_nil (by rwa [List.append_nil])
    rw [List.append_nil]
    exact .nil (.comment k nofun)
  | @cons _ gap rest t ts hgap hne hspan h =>
    obtain rfl : gap = [] := hgap.eq_nil hhead
    refine .cons (.comment k hhead) hne ?_ h
    rw [hspan, List.nil_append, byteLength_nil, Nat.add_zero, byteLength_append, Nat.add_assoc]

end LaidOut

/-- **A text is made of its words and line breaks, with gaps around them.** -/
theorem laidOut_tokensFrom (pos : Nat) (cs : List Char) : LaidOut pos cs (tokensFrom pos cs) := by
  induction pos, cs using tokensFrom.induct with
  | case1 pos =>
    rw [tokensFrom]
    exact .nil .nil
  | case2 pos cs ih =>
    rw [tokensFrom, if_pos rfl]
    exact .cons (t := .newline ⟨pos, pos + 1⟩) .nil (List.cons_ne_nil _ _) rfl ih
  | case3 pos c cs hnl hspace ih =>
    rw [tokensFrom, if_neg hnl, if_pos hspace]
    exact ih.blank hspace hnl
  | case4 pos c cs hnl hspace hcomment ih =>
    rw [tokensFrom, if_neg hnl, if_neg hspace, if_pos hcomment]
    obtain ⟨rfl, hhead⟩ := WordPlace.startsComment_eq_true_iff.1 hcomment
    obtain ⟨cs, rfl⟩ : ∃ cs', cs = '/' :: cs' := List.head?_eq_some_iff.1 hhead
    rw [List.takeWhile_cons_of_pos (by decide), List.dropWhile_cons_of_pos (by decide)] at ih ⊢
    let k : Comment := ⟨cs.takeWhile (· ≠ '\n'), fun h => by simpa using List.mem_takeWhile_imp h⟩
    have hcs : '/' :: '/' :: cs = k.chars ++ cs.dropWhile (· ≠ '\n') := by
      rw [Comment.chars, List.cons_append, List.cons_append, List.takeWhile_append_dropWhile]
    have hbehind : ∀ c ∈ (cs.dropWhile (· ≠ '\n')).head?, c = '\n' := by
      intro c hc
      have hnot := List.head?_dropWhile_not (· ≠ '\n') cs
      rw [Option.mem_def.1 hc] at hnot
      simpa using hnot
    rw [hcs]
    exact LaidOut.comment k hbehind (by simpa [k, Comment.chars, Nat.add_assoc] using ih)
  | case5 pos c cs hnl hspace hcomment p stop ih =>
    rw [tokensFrom, if_neg hnl, if_neg hspace, if_neg hcomment]
    have hcs : c :: cs = (c :: p.1) ++ p.2 := by
      rw [List.cons_append, wordSpan_append]
    rw [hcs]
    exact .cons (t := .word ⟨c :: p.1, ⟨pos, stop⟩⟩) .nil (List.cons_ne_nil _ _) rfl ih

/-! ### What the layout says of spans -/

/-- Between the two stretches of the text there is nothing but a gap. -/
def GapBetween (text : List Char) (s t : Span) : Prop :=
  ∃ before gap behind, text = before ++ (gap ++ behind) ∧ s.stop = byteLength before ∧
    t.start = byteLength (before ++ gap) ∧ IsGap behind gap

/-- The tokens stand in the text, in order, and nothing but gaps is left out. -/
structure TokensOf (text : List Char) (ts : List Token) : Prop where
  /-- The text of each token is what its span cuts out, and it is not empty. -/
  stands : ∀ t ∈ ts, t.text ≠ [] ∧ t.span.slice? text = some t.text
  /-- Each begins behind the end of the one before. -/
  ordered : ts.Pairwise fun s t => s.span.Before t.span
  /-- From the start of the text to its end, what lies between neighbours is a gap. -/
  gaps : List.IsChain (GapBetween text)
    (⟨0, 0⟩ :: (ts.map Token.span ++ [⟨byteLength text, byteLength text⟩]))

namespace LaidOut

variable {pos : Nat} {cs : List Char} {ts : List Token} (before : List Char)

/-- What follows a token stands behind it. -/
theorem stop_eq {gap text : List Char} {s : Span} (hpos : pos = byteLength before)
    (hspan : s = ⟨pos + byteLength gap, pos + byteLength (gap ++ text)⟩) :
    s.stop = byteLength (before ++ (gap ++ text)) := by
  rw [hspan, hpos, byteLength_append before]

theorem stands (h : LaidOut pos cs ts) (hpos : pos = byteLength before) :
    ∀ t ∈ ts, t.text ≠ [] ∧ t.span.slice? (before ++ cs) = some t.text := by
  induction h generalizing before with
  | nil _ => exact nofun
  | @cons pos gap rest t ts _ hne hspan _ ih =>
    refine List.forall_mem_cons.2 ⟨⟨hne, slice?_eq_some_iff.2 ⟨before ++ gap, rest, ?_, ?_⟩⟩, ?_⟩
    · rw [List.append_assoc]
    · rw [hspan, hpos, List.append_assoc, byteLength_append before, byteLength_append before]
    · have hrest := ih (before ++ (gap ++ t.text)) (stop_eq before hpos hspan)
      simpa only [List.append_assoc] using hrest

/-- No token begins in front of the text. -/
theorem le_start (h : LaidOut pos cs ts) : ∀ t ∈ ts, pos ≤ t.span.start := by
  induction h with
  | nil _ => exact nofun
  | @cons pos gap rest t ts _ _ hspan _ ih =>
    have hstart : pos ≤ t.span.start := by
      rw [hspan]
      exact Nat.le_add_right _ _
    have hstop : pos ≤ t.span.stop := by
      rw [hspan]
      exact Nat.le_add_right _ _
    exact List.forall_mem_cons.2 ⟨hstart, fun u hu => hstop.trans (ih u hu)⟩

theorem ordered (h : LaidOut pos cs ts) : ts.Pairwise fun s t => s.span.Before t.span := by
  induction h with
  | nil _ => exact List.Pairwise.nil
  | cons _ _ _ h ih => exact List.Pairwise.cons h.le_start ih

theorem gaps (h : LaidOut pos cs ts) (hpos : pos = byteLength before) {s : Span}
    (hs : s.stop = byteLength before) :
    List.IsChain (GapBetween (before ++ cs))
      (s :: (ts.map Token.span ++ [⟨byteLength (before ++ cs), byteLength (before ++ cs)⟩])) := by
  induction h generalizing before s with
  | @nil pos gap hgap =>
    have hlast : GapBetween (before ++ gap) s
        ⟨byteLength (before ++ gap), byteLength (before ++ gap)⟩ :=
      ⟨before, gap, [], by rw [List.append_nil], hs, rfl, hgap⟩
    exact .cons_cons hlast (.singleton _)
  | @cons pos gap rest t ts hgap _ hspan _ ih =>
    have hfirst : GapBetween (before ++ (gap ++ (t.text ++ rest))) s t.span :=
      ⟨before, gap, t.text ++ rest, rfl, hs, by rw [hspan, hpos, byteLength_append before gap],
        hgap⟩
    have hstop := stop_eq before hpos hspan
    have hrest := ih (before ++ (gap ++ t.text)) hstop hstop
    rw [List.map_cons, List.cons_append]
    refine .cons_cons hfirst ?_
    simpa only [List.append_assoc] using hrest

/-- **The tokens of a layout stand in the text**, in order, with gaps between them. -/
theorem tokensOf (h : LaidOut 0 cs ts) : TokensOf cs ts :=
  ⟨h.stands [] rfl, h.ordered, h.gaps [] rfl rfl⟩

end LaidOut

/-- **The words and line breaks of a body stand in it**, in order, with gaps between them. -/
theorem tokensOf_tokens (body : String) : TokensOf body.toList (tokens body) :=
  (laidOut_tokensFrom 0 body.toList).tokensOf

end Sieve.Schema
