import Sieve.Proofs.Schema.ByteBlocks
import Sieve.Proofs.Schema.Declarations
import Sieve.Proofs.Schema.FieldTypes
import Sieve.Proofs.Schema.TokenPlaces

/-!
# Where fields stand

The span of a field reaches from its first word to its last. The words of a body stand in it in
order, and the declarations take them in order, so a field's span cuts out a text that begins with
the field's name and in which its attributes follow in turn, and the span of a field ends before the
next one begins.

Words and their spans are counted from the start of a body, fields from the start of the whole text.
The body is cut out of the text where it begins, so the two differ by a shift.

## Main definitions

* `InTurn` — pieces of a text, none of them reaching into the next
* `WordsOf` — the words stand in the text, in order
* `Model.StandsIn` — the fields of a model stand between its braces, in order

## Main results

* `WordsOf.slice?_cons` — what stands from the first word to the last
* `Document.standsIn_parse` — the words of a body and the fields of a text stand where their spans
  say
-/

namespace Sieve.Schema

open Sieve.Text

/-! ### Pieces in turn -/

/-- The pieces stand in the text in turn, none of them reaching into the next; anything may stand
around them. -/
inductive InTurn : List (List Char) → List Char → Prop
  | nil (cs : List Char) : InTurn [] cs
  | cons (front piece : List Char) {pieces : List (List Char)} {rest : List Char}
    (h : InTurn pieces rest) : InTurn (piece :: pieces) (front ++ (piece ++ rest))

namespace InTurn

variable {pieces fewer : List (List Char)} {cs : List Char}

theorem append_left (h : InTurn pieces cs) (front : List Char) : InTurn pieces (front ++ cs) := by
  cases h with
  | nil cs => exact .nil _
  | cons front' piece h =>
    rw [← List.append_assoc]
    exact .cons (front ++ front') piece h

theorem sublist (h : InTurn pieces cs) (hsub : fewer.Sublist pieces) : InTurn fewer cs := by
  induction h generalizing fewer with
  | nil cs =>
    obtain rfl := List.sublist_nil.1 hsub
    exact .nil cs
  | cons front piece _ ih =>
    rcases List.sublist_cons_iff.1 hsub with hrest | ⟨others, rfl, hrest⟩
    · exact ((ih hrest).append_left piece).append_left front
    · exact .cons front piece (ih hrest)

end InTurn

/-! ### Words in a text -/

/-- The words stand in the text, in order. -/
structure WordsOf (text : List Char) (ws : List Word) : Prop where
  stands : ∀ w ∈ ws, w.text ≠ [] ∧ w.span.slice? text = some w.text
  ordered : ws.Pairwise fun v w => v.span.Before w.span

theorem TokensOf.wordsOf {text : List Char} {ts : List Token} (h : TokensOf text ts) :
    WordsOf text (ts.filterMap Token.word?) where
  stands := by
    intro w hw
    obtain ⟨t, ht, hword⟩ := List.mem_filterMap.1 hw
    cases t with
    | newline s => cases hword
    | word v =>
      obtain rfl := Option.some.inj hword
      exact h.stands _ ht
  ordered := by
    rw [List.pairwise_filterMap]
    refine h.ordered.imp fun {s t} hbefore v hv w hw => ?_
    cases s with
    | newline _ => cases hv
    | word _ =>
      cases t with
      | newline _ => cases hw
      | word _ =>
        obtain rfl := Option.some.inj hv
        obtain rfl := Option.some.inj hw
        exact hbefore

theorem WordsOf.sublist {text : List Char} {ws fewer : List Word} (h : WordsOf text ws)
    (hsub : fewer.Sublist ws) : WordsOf text fewer :=
  ⟨fun w hw => h.stands w (hsub.subset hw), h.ordered.sublist hsub⟩

/-- What two spans cut out, one behind the other, stands in what they cut out together. -/
theorem slice?_of_before {text xs ys : List Char} {s t : Span} (hs : s.slice? text = some xs)
    (ht : t.slice? text = some ys) (h : s.Before t) :
    ∃ between, Span.slice? ⟨s.start, t.stop⟩ text = some (xs ++ (between ++ ys)) := by
  obtain ⟨front, behind, htext, rfl⟩ := slice?_eq_some_iff.1 hs
  obtain ⟨front', behind', htext', rfl⟩ := slice?_eq_some_iff.1 ht
  have hle : byteLength (front ++ xs) ≤ byteLength front' := h
  obtain ⟨between, rfl⟩ : ∃ between, front' = (front ++ xs) ++ between := by
    have heq : (front ++ xs) ++ behind = front' ++ (ys ++ behind') := by
      rw [List.append_assoc, ← htext, htext']
    rcases List.append_eq_append_iff.1 heq with ⟨between, hbetween, -⟩ | ⟨extra, hextra, -⟩
    · exact ⟨between, hbetween⟩
    · -- the first cut cannot end behind the start of the second
      rw [hextra, byteLength_append_le_left_iff] at hle
      exact ⟨[], by rw [hextra, hle, List.append_nil, List.append_nil]⟩
  refine ⟨between, slice?_eq_some_iff.2 ⟨front, behind', ?_, ?_⟩⟩
  · rw [htext']
    simp only [List.append_assoc]
  · simp only [List.append_assoc]

/-- **From the first word to the last**, the text begins with the first and holds the others in
turn. -/
theorem WordsOf.slice?_cons {text : List Char} {w : Word} {ws : List Word}
    (h : WordsOf text (w :: ws)) :
    ∃ rest, Span.slice? ⟨w.span.start, (ws.getLast?.getD w).span.stop⟩ text =
      some (w.text ++ rest) ∧ InTurn (ws.map Word.text) rest := by
  induction ws generalizing w with
  | nil =>
    have hw := (h.stands w List.mem_cons_self).2
    exact ⟨[], by rwa [List.append_nil], .nil []⟩
  | cons v ws ih =>
    obtain ⟨rest, hrest, hturn⟩ := ih (h.sublist (List.sublist_cons_self w _))
    have hw := (h.stands w List.mem_cons_self).2
    have hbefore : w.span.Before ⟨v.span.start, (ws.getLast?.getD v).span.stop⟩ :=
      List.rel_of_pairwise_cons h.ordered List.mem_cons_self
    obtain ⟨between, hslice⟩ := slice?_of_before hw hrest hbefore
    rw [List.getLast?_cons, Option.getD_some]
    exact ⟨between ++ (v.text ++ rest), hslice, .cons between v.text hturn⟩

/-- What is cut out of a part of a text is cut out of the text, further behind. -/
theorem slice?_shift {s : Span} {body piece : List Char} (h : s.slice? body = some piece)
    (before after : List Char) :
    (s.shift (byteLength before)).slice? (before ++ (body ++ after)) = some piece := by
  obtain ⟨front, behind, rfl, rfl⟩ := slice?_eq_some_iff.1 h
  refine slice?_eq_some_iff.2 ⟨before ++ front, behind ++ after, ?_, ?_⟩
  · simp only [List.append_assoc]
  · simp only [Span.shift, byteLength_append]
    congr 1 <;> omega

/-- What is cut out of a text lies in it. -/
theorem stop_le_of_slice? {s : Span} {text piece : List Char} (h : s.slice? text = some piece) :
    s.stop ≤ byteLength text := by
  obtain ⟨front, behind, rfl, rfl⟩ := slice?_eq_some_iff.1 h
  simp only [byteLength_append]
  omega

/-- A cut that is not empty ends behind its start. -/
theorem start_lt_stop_of_slice? {s : Span} {text piece : List Char}
    (h : s.slice? text = some piece) (hne : piece ≠ []) : s.start < s.stop := by
  obtain ⟨front, behind, rfl, rfl⟩ := slice?_eq_some_iff.1 h
  obtain ⟨c, cs, rfl⟩ := List.exists_cons_of_ne_nil hne
  exact byteLength_lt_append_cons front cs c

/-! ### One field -/

/-- The field stands in the text where its span says: its name, and behind it its attributes in
turn. -/
def Field.StandsIn (text : List Char) (f : Field) : Prop :=
  ∃ rest, f.span.slice? text = some (f.name.toList ++ rest) ∧
    InTurn (f.words.map String.toList) rest

namespace Field

variable {names : Names} {bodyStart : Nat} {ws : List Word} {f : Field}

/-- A field reaches from one of its words to another. -/
theorem exists_span_eq (h : ofWords? names bodyStart ws = some f) :
    ∃ first ∈ ws, ∃ last ∈ ws,
      f.span = (⟨first.span.start, last.span.stop⟩ : Span).shift bodyStart := by
  obtain ⟨name, type, rest, rfl, -, -, -, hspan⟩ := exists_words_of_ofWords? h
  refine ⟨name, List.mem_cons_self, (type :: rest).getLast?.getD name, ?_, hspan⟩
  rw [List.getLast?_cons, Option.getD_some]
  exact List.mem_cons_of_mem _ (List.mem_of_getLast? (by rw [List.getLast?_cons]))

variable {before body after : List Char}

/-- **A field stands where its words do.** -/
theorem standsIn_of_wordsOf (hws : WordsOf body ws)
    (h : ofWords? names (byteLength before) ws = some f) :
    f.StandsIn (before ++ (body ++ after)) := by
  obtain ⟨name, type, rest, rfl, hname, -, hwords, hspan⟩ := exists_words_of_ofWords? h
  obtain ⟨behind, hslice, hturn⟩ := hws.slice?_cons
  refine ⟨behind, ?_, hturn.sublist ?_⟩
  · rw [hspan, hname, String.toList_ofList]
    exact slice?_shift hslice before after
  · rw [hwords, List.map_map]
    have hattributes : (rest.filter Word.isAttribute).Sublist (type :: rest) :=
      List.filter_sublist.trans (List.sublist_cons_self type rest)
    simpa [Function.comp_def] using hattributes.map Word.text

/-- A field is not empty, and lies in the body whose words it was read off. -/
theorem bounds_of_wordsOf (hws : WordsOf body ws) (h : ofWords? names bodyStart ws = some f) :
    bodyStart ≤ f.span.start ∧ f.span.start < f.span.stop ∧
      f.span.stop ≤ bodyStart + byteLength body := by
  obtain ⟨name, type, rest, rfl, -, -, -, hspan⟩ := exists_words_of_ofWords? h
  obtain ⟨behind, hslice, -⟩ := hws.slice?_cons
  have hne : name.text ++ behind ≠ [] :=
    List.append_ne_nil_of_left_ne_nil (hws.stands name List.mem_cons_self).1 _
  have hlt := start_lt_stop_of_slice? hslice hne
  have hle := stop_le_of_slice? hslice
  rw [hspan]
  simp only [Span.shift] at hlt hle ⊢
  omega

end Field

/-! ### The fields of a model -/

/-- The fields of the model stand in the text where their spans say, in order, between the braces of
the model. -/
structure Model.StandsIn (text : List Char) (m : Model) : Prop where
  /-- The span of the model cuts out a head, and a body in braces. Every field lies in the body. -/
  inside : ∃ head body, m.span.slice? text = some (head ++ '\x7b' :: (body ++ ['\x7d'])) ∧
    '\x7b' ∉ head ∧ ∀ f ∈ m.fields,
      m.span.start + byteLength (head ++ ['\x7b']) ≤ f.span.start ∧
        f.span.stop ≤ m.span.start + byteLength (head ++ '\x7b' :: body)
  nonempty : ∀ f ∈ m.fields, f.span.start < f.span.stop
  /-- Each begins behind the end of the one before. -/
  ordered : m.fields.Pairwise fun f g => f.span.Before g.span
  stands : ∀ f ∈ m.fields, f.StandsIn text

/-- The words of the declarations of a body stand in it, in order. -/
theorem wordsOf_declarations (body : String) :
    WordsOf body.toList ((declarations body).flatMap Declaration.words) :=
  (tokensOf_tokens body).wordsOf.sublist (sublist_words_group [] (tokens body))

/-- So do those of each of them. -/
theorem wordsOf_of_mem_declarations {body : String} {d : Declaration} (h : d ∈ declarations body) :
    WordsOf body.toList d.words where
  stands w hw := (wordsOf_declarations body).stands w (List.mem_flatMap.2 ⟨d, h, hw⟩)
  ordered := (List.pairwise_flatMap.1 (wordsOf_declarations body).ordered).1 d h

/-- A block is a head without braces and a body in braces, and the body begins behind the first
brace. -/
theorem Block.SoundIn.exists_head {source : String} {b : Block} (h : b.SoundIn source) :
    ∃ head, b.text.toList = head ++ '\x7b' :: (b.body.toList ++ ['\x7d']) ∧ '\x7b' ∉ head ∧
      b.bodyStart = b.span.start + byteLength (head ++ ['\x7b']) := by
  obtain ⟨gap, inner, -, hgap, hname, hinner, htext⟩ := h.parts
  have hspaces : ∀ cs : List Char, (∀ c ∈ cs, isAsciiSpace c = true) → '\x7b' ∉ cs :=
    fun cs hcs hmem => absurd (hcs _ hmem) (by decide)
  have hkeyword : '\x7b' ∉ b.kind.keyword.toList := by
    cases b.kind <;> decide
  have hident : '\x7b' ∉ b.name.toList := fun hmem =>
    absurd (isIdentRest_of_isIdent hname _ hmem) (by decide)
  refine ⟨b.kind.keyword.toList ++ gap ++ b.name.toList ++ inner, htext, ?_, ?_⟩
  · simp only [List.mem_append, not_or]
    exact ⟨⟨⟨hkeyword, hspaces gap hgap⟩, hident⟩, hspaces inner hinner⟩
  · obtain ⟨before, after, -, hspan⟩ := slice?_eq_some_iff.1 h.text_slice
    have hstop := h.stop_eq
    have hopen : Char.utf8Size '\x7b' = 1 := by decide
    have hclose : Char.utf8Size '\x7d' = 1 := by decide
    rw [hspan, htext] at hstop ⊢
    simp only [byteLength_append, byteLength_cons, byteLength_nil, hopen, hclose] at hstop ⊢
    omega

namespace Model

variable {names : Names} {source : String} {b : Block}

/-- The declarations of a body come in order, and so do the fields that are read off them. -/
theorem pairwise_fields_ofBlock (names : Names) (b : Block) :
    (ofBlock names b).fields.Pairwise fun f g => f.span.Before g.span := by
  have hdeclarations := (List.pairwise_flatMap.1 (wordsOf_declarations b.body).ordered).2
  refine List.pairwise_filterMap.2 (hdeclarations.imp fun {d e} hbefore f hf g hg => ?_)
  cases d with
  | directive w => cases hf
  | field ws =>
    cases e with
    | directive w => cases hg
    | field us =>
      obtain ⟨_, _, last, hlast, hfspan⟩ := Field.exists_span_eq hf
      obtain ⟨first, hfirst, _, _, hgspan⟩ := Field.exists_span_eq hg
      have hle : last.span.stop ≤ first.span.start := hbefore last hlast first hfirst
      rw [hfspan, hgspan]
      exact Nat.add_le_add_right hle _

/-- **The fields of a block stand where their spans say.** -/
theorem standsIn_ofBlock (h : b.SoundIn source) (names : Names) :
    (ofBlock names b).StandsIn source.toList := by
  obtain ⟨before, after, hsource, hbody⟩ := slice?_eq_some_iff.1 h.body_slice
  obtain ⟨hstart, -⟩ : b.bodyStart = byteLength before ∧ _ := Span.mk.inj hbody
  have hstands : ∀ f ∈ (ofBlock names b).fields, f.StandsIn source.toList := by
    intro f hf
    obtain ⟨ws, hd, hwords⟩ := exists_words_of_mem_fields hf
    rw [hstart] at hwords
    rw [hsource]
    exact Field.standsIn_of_wordsOf (wordsOf_of_mem_declarations hd) hwords
  refine ⟨?_, fun f hf => ?_, pairwise_fields_ofBlock names b, hstands⟩
  · obtain ⟨head, htext, hhead, hopen⟩ := h.exists_head
    refine ⟨head, b.body.toList, htext ▸ h.text_slice, hhead, fun f hf => ?_⟩
    obtain ⟨ws, hd, hwords⟩ := exists_words_of_mem_fields hf
    obtain ⟨hfront, -, hbehind⟩ :=
      Field.bounds_of_wordsOf (wordsOf_of_mem_declarations hd) hwords
    have hspan : (ofBlock names b).span.start = b.span.start := rfl
    have hbraced : byteLength (head ++ '\x7b' :: b.body.toList) =
        byteLength (head ++ ['\x7b']) + byteLength b.body.toList := by
      rw [← byteLength_append, List.append_assoc, List.singleton_append]
    omega
  · obtain ⟨ws, hd, hwords⟩ := exists_words_of_mem_fields hf
    exact (Field.bounds_of_wordsOf (wordsOf_of_mem_declarations hd) hwords).2.1

end Model

/-- **Spans point at what is written.** The words and line breaks of every body stand in it in
order, cut out at their spans, with only blanks and comments left out between them. The fields of
every model of a text lie between the braces of the model, in order, none empty and none reaching
into the next; each begins with its name, and its attributes follow in turn. -/
theorem Document.standsIn_parse :
    (∀ source, ∀ m ∈ (parse source).models, m.StandsIn source.toList) ∧
      ∀ body, TokensOf body.toList (tokens body) := by
  refine ⟨fun source m hm => ?_, tokensOf_tokens⟩
  rw [models_parse] at hm
  obtain ⟨b, hb, rfl⟩ := List.mem_map.1 hm
  have hmem : b ∈ blocks source := List.mem_of_mem_filter ((firstOfNames_sublist _).subset hb)
  exact Model.standsIn_ofBlock (soundIn_of_mem_blocks hmem) _

end Sieve.Schema
