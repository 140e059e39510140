import Mathlib.Data.List.Infix
import Sieve.Proofs.Filter.KeySpellings
import Sieve.Proofs.Text.ParsingExpr

/-!
# The grammar of keys

A key is a run of separators, bracket groups and segments, tried in this order at each place. A
segment takes characters as long as neither of the other two begins. So at each place exactly one of
the three matches, and the run goes on to the end of the key, whatever the key is: brackets that are
not closed, empty groups and odd runs of underscores are no exception.

What the grammar matches in a key are its pieces, and nothing is left out between them.

## Main definitions

* `IsPlain` — a place in a key where neither a separator nor a bracket group begins
* `KeyGrammar.key` — the grammar, as a parsing expression
* `Piece.found` — what the grammar matches as a piece
* `KeyGrammar.nameIn` — the name that is taken from a match

## Main results

* `key_induction` — keys, place by place
* `spell_pieces` — the pieces of a key spell it out
* `KeyGrammar.gives_items` — the run of items matches any text, and the matches are its pieces
* `KeyGrammar.gives_key_iff_and_segments` — the grammar accepts every key and loses no text
-/

namespace Sieve.Filter

open Sieve.Text (Match ParsingExpr)

/-! ### Places in a key -/

/-- Neither a separator nor a bracket group begins with the character `c` in front of `cs`. -/
structure IsPlain (c : Char) (cs : List Char) : Prop where
  no_separator : ¬ (c = '_' ∧ cs.head? = some '_')
  no_bracket : ¬ (c = '[' ∧ ']' ∈ cs)

theorem pieces_nil : pieces [] = [] := by rw [pieces]

theorem pieces_separator (cs : List Char) :
    pieces ('_' :: '_' :: cs) = .separator :: pieces cs := by
  rw [pieces, if_pos ⟨rfl, rfl⟩]
  rfl

theorem pieces_plain {c : Char} {cs : List Char} (h : IsPlain c cs) :
    pieces (c :: cs) = Piece.push c (pieces cs) := by
  rw [pieces, if_neg h.no_separator, if_neg h.no_bracket]

/-- **Keys, place by place.** A key is empty, or it begins with a separator, a bracket group or a
plain character, and only one of these. -/
@[elab_as_elim]
theorem key_induction {P : List Char → Prop} (nil : P [])
    (separator : ∀ cs, P cs → P ('_' :: '_' :: cs))
    (bracket : ∀ content cs, ']' ∉ content → P cs → P ('[' :: (content ++ ']' :: cs)))
    (plain : ∀ c cs, IsPlain c cs → P cs → P (c :: cs)) (cs : List Char) : P cs := by
  induction cs using pieces.induct with
  | case1 => exact nil
  | case2 c cs hsep ih =>
    obtain ⟨rfl, hhead⟩ := hsep
    obtain ⟨cs, rfl⟩ := List.head?_eq_some_iff.1 hhead
    exact separator cs ih
  | case3 c cs hsep hopen ih =>
    obtain ⟨rfl, hclosed⟩ := hopen
    obtain ⟨content, ds, rfl, hcontent⟩ := List.eq_append_cons_of_mem hclosed
    rw [Text.dropWhile_ne_append_cons hcontent, List.drop_one, List.tail_cons] at ih
    exact bracket content ds hcontent ih
  | case4 c cs hsep hopen ih => exact plain c cs ⟨hsep, hopen⟩ ih

/-! ### What pieces hold -/

theorem spell_push (c : Char) (ps : List Piece) : spell (Piece.push c ps) = c :: spell ps := by
  unfold Piece.push
  split <;> rfl

/-- **The pieces of a key spell it out.** -/
theorem spell_pieces (cs : List Char) : spell (pieces cs) = cs := by
  induction cs using key_induction with
  | nil =>
    rw [pieces_nil]
    rfl
  | separator cs ih =>
    rw [pieces_separator]
    exact congrArg ('_' :: '_' :: ·) ih
  | bracket content cs hcontent ih =>
    have hgroup : spell (.bracket content :: pieces cs) =
        '[' :: (content ++ [']'] ++ spell (pieces cs)) := rfl
    rw [pieces_bracket hcontent, hgroup, ih, List.append_assoc, List.singleton_append]
  | plain c cs h ih => rw [pieces_plain h, spell_push, ih]

/-- What is in the pieces with one more plain character in front. -/
theorem mem_push {c : Char} {ps : List Piece} {p : Piece} (h : p ∈ Piece.push c ps) :
    p ∈ ps ∨ p = .plain [c] ∨ ∃ text rest, ps = .plain text :: rest ∧ p = .plain (c :: text) := by
  unfold Piece.push at h
  split at h
  · next text rest =>
    rcases List.mem_cons.1 h with rfl | h
    · exact Or.inr (Or.inr ⟨text, rest, rfl, rfl⟩)
    · exact Or.inl (List.mem_cons_of_mem _ h)
  · rcases List.mem_cons.1 h with rfl | h
    · exact Or.inr (Or.inl rfl)
    · exact Or.inl h

/-- **A bracket group holds no closing bracket.** -/
theorem not_mem_of_bracket_mem_pieces {cs content : List Char} (h : .bracket content ∈ pieces cs) :
    ']' ∉ content := by
  induction cs using key_induction with
  | nil => simp [pieces_nil] at h
  | separator cs ih =>
    rw [pieces_separator] at h
    exact ih (by simpa using h)
  | bracket inside cs hinside ih =>
    rw [pieces_bracket hinside] at h
    rcases List.mem_cons.1 h with heq | h
    · obtain rfl := Piece.bracket.inj heq
      exact hinside
    · exact ih h
  | plain c cs hplain ih =>
    rw [pieces_plain hplain] at h
    obtain h | h | ⟨_, _, _, h⟩ := mem_push h
    · exact ih h
    · cases h
    · cases h

/-- **Plain text holds no separator.** -/
theorem not_infix_of_plain_mem_pieces {cs text : List Char} (h : .plain text ∈ pieces cs) :
    ¬ ['_', '_'] <:+: text := by
  induction cs using key_induction generalizing text with
  | nil => simp [pieces_nil] at h
  | separator cs ih =>
    rw [pieces_separator] at h
    exact ih (by simpa using h)
  | bracket inside cs hinside ih =>
    rw [pieces_bracket hinside] at h
    exact ih (by simpa using h)
  | plain c cs hplain ih =>
    rw [pieces_plain hplain] at h
    obtain h | h | ⟨text', rest, hps, h⟩ := mem_push h
    · exact ih h
    · obtain rfl := Piece.plain.inj h
      intro hinfix
      simpa using hinfix.length_le
    · obtain rfl := Piece.plain.inj h
      intro hinfix
      rcases List.infix_cons_iff.1 hinfix with hprefix | hinfix
      · -- the character and the one behind it would be a separator of the key
        obtain ⟨rfl, ds, rfl⟩ : c = '_' ∧ ∃ ds, text' = '_' :: ds := by
          obtain ⟨ds, hds⟩ := hprefix
          obtain ⟨rfl, rfl⟩ := List.cons.inj hds
          exact ⟨rfl, ds, rfl⟩
        have hcs : '_' :: (ds ++ spell rest) = cs := by
          rw [← spell_pieces cs, hps]
          rfl
        exact hplain.no_separator ⟨rfl, by rw [← hcs]; rfl⟩
      · exact ih (hps ▸ List.mem_cons_self) hinfix

/-! ### The grammar -/

namespace KeyGrammar

/-- The rules of the grammar. -/
inductive Rule where
  | separator
  /-- The inside of a bracket group. -/
  | content
  | bracketed
  | segment
  | key
  | finish
deriving Repr, DecidableEq

/-- Two underscores. -/
def separator : ParsingExpr Rule := .named .separator (.text ['_', '_'])

/-- Everything in front of the next closing bracket. -/
def content : ParsingExpr Rule := .named .content (.many (.seq (.absent (.text [']'])) .any))

/-- A bracket group. -/
def bracketed : ParsingExpr Rule :=
  .named .bracketed (.seq (.text ['[']) (.seq content (.text [']'])))

/-- A character where neither of the two begins. -/
def segmentChar : ParsingExpr Rule := .seq (.absent (.choice separator bracketed)) .any

/-- Such characters, as many as there are. -/
def segment : ParsingExpr Rule := .named .segment (.many1 segmentChar)

/-- What a key is made of. -/
def item : ParsingExpr Rule := .choice separator (.choice bracketed segment)

/-- A whole key. -/
def key : ParsingExpr Rule :=
  .named .key (.seq .start (.seq (.many item) (.named .finish .finish)))

/-- The name that is taken from a match: the text of a segment, or what stands in a bracket group.
From other matches an empty one is taken. -/
def nameIn (m : Match Rule) : List Char :=
  match m.rule with
  | .segment => m.text
  | .bracketed => (m.inner.head?.map Match.text).getD []
  | _ => []

end KeyGrammar

/-- What the grammar matches as a piece. -/
def Piece.found : Piece → Match KeyGrammar.Rule
  | separator => ⟨.separator, ['_', '_'], []⟩
  | bracket content => ⟨.bracketed, '[' :: (content ++ [']']), [⟨.content, content, []⟩]⟩
  | plain text => ⟨.segment, text, []⟩

theorem Piece.text_found (p : Piece) : p.found.text = p.spell := by
  cases p <;> rfl

namespace KeyGrammar

open Sieve.Text.ParsingExpr (Gives)

variable {whole : List Char}

/-! ### Outcomes at one place -/

theorem gives_separator (cs : List Char) :
    Gives whole separator ('_' :: '_' :: cs) (some ([Piece.separator.found], cs)) :=
  .named rfl (.text rfl)

theorem separator_fails {c : Char} {cs : List Char} (h : IsPlain c cs) :
    Gives whole separator (c :: cs) none := by
  refine .named_fails (.text_fails ?_)
  rintro ⟨ds, hds⟩
  obtain ⟨rfl, rfl⟩ := List.cons.inj hds
  exact h.no_separator ⟨rfl, rfl⟩

theorem separator_fails_of_ne {c : Char} {cs : List Char} (h : c ≠ '_') :
    Gives whole separator (c :: cs) none := by
  refine .named_fails (.text_fails ?_)
  rintro ⟨ds, hds⟩
  exact h (List.cons.inj hds).1.symm

/-- The inside of a bracket group goes up to the first closing bracket, or to the end. -/
theorem gives_content {inside : List Char} (hinside : ']' ∉ inside) {rest : List Char}
    (hrest : ∀ c ∈ rest.head?, c = ']') :
    Gives whole content (inside ++ rest) (some ([⟨.content, inside, []⟩], rest)) := by
  refine .named rfl ?_
  induction inside with
  | nil =>
    refine .many_stops ?_
    cases rest with
    | nil => exact .seq_fails_later (.absent (.text_fails (by simp))) .any_fails
    | cons c rest =>
      obtain rfl : c = ']' := hrest c rfl
      exact .seq_fails (.absent_fails (.text rfl))
  | cons c inside ih =>
    have hc : c ≠ ']' := fun e => hinside (by simp [e])
    have hmore : ']' ∉ inside := fun h => hinside (List.mem_cons_of_mem c h)
    have hopen : ¬ [']'] <+: c :: (inside ++ rest) := by
      rintro ⟨ds, hds⟩
      exact hc (List.cons.inj hds).1.symm
    exact .many (.seq (.absent (.text_fails hopen)) .any) (ih hmore)

theorem gives_bracketed {inside : List Char} (hinside : ']' ∉ inside) (cs : List Char) :
    Gives whole bracketed ('[' :: (inside ++ ']' :: cs))
      (some ([(Piece.bracket inside).found], cs)) := by
  have hcontent : Gives whole content (inside ++ ']' :: cs)
      (some ([⟨.content, inside, []⟩], ']' :: cs)) := gives_content hinside (by simp)
  refine .named (by simp) (.seq (.text rfl) ?_)
  exact .seq hcontent (.text rfl)

theorem bracketed_fails {c : Char} {cs : List Char} (h : IsPlain c cs) :
    Gives whole bracketed (c :: cs) none := by
  refine .named_fails ?_
  by_cases hc : c = '['
  · subst hc
    -- no bracket closes the group, so that its inside takes all the rest
    have hopen : ']' ∉ cs := fun hmem => h.no_bracket ⟨rfl, hmem⟩
    have hcontent : Gives whole content (cs ++ []) (some ([⟨.content, cs, []⟩], [])) :=
      gives_content hopen (by simp)
    rw [List.append_nil] at hcontent
    exact .seq_fails_later (.text rfl) (.seq_fails_later hcontent (.text_fails (by simp)))
  · refine .seq_fails (.text_fails ?_)
    rintro ⟨ds, hds⟩
    exact hc (List.cons.inj hds).1.symm

/-- **A segment takes a character exactly if neither of the two others begins with it.** -/
theorem gives_segmentChar {c : Char} {cs : List Char} (h : IsPlain c cs) :
    Gives whole segmentChar (c :: cs) (some ([], cs)) :=
  .seq (.absent (.choice_second (separator_fails h) (bracketed_fails h))) .any

theorem segmentChar_fails_nil : Gives whole segmentChar [] none := by
  have hseparator : Gives whole separator [] none := .named_fails (.text_fails (by simp))
  have hbracketed : Gives whole bracketed [] none :=
    .named_fails (.seq_fails (.text_fails (by simp)))
  exact .seq_fails_later (.absent (.choice_second hseparator hbracketed)) .any_fails

theorem item_fails_nil : Gives whole item [] none := by
  have hseparator : Gives whole separator [] none := .named_fails (.text_fails (by simp))
  have hbracketed : Gives whole bracketed [] none :=
    .named_fails (.seq_fails (.text_fails (by simp)))
  have hsegment : Gives whole segment [] none := .named_fails (.seq_fails segmentChar_fails_nil)
  exact .choice_second hseparator (.choice_second hbracketed hsegment)

/-! ### The run of items -/

/-- Plain characters in front of pieces, of which the first is not plain itself, are one piece. -/
theorem foldr_push {ps : List Piece} (h : ∀ t qs, ps ≠ .plain t :: qs) (c : Char)
    (text : List Char) : (c :: text).foldr Piece.push ps = .plain (c :: text) :: ps := by
  induction text generalizing c with
  | nil =>
    cases ps with
    | nil => rfl
    | cons p ps =>
      cases p with
      | separator => rfl
      | bracket content => rfl
      | plain t => exact absurd rfl (h t ps)
  | cons d text ih =>
    rw [List.foldr_cons, ih d]
    rfl

/-- What the grammar does at a place: plain characters, if any, go on up to `rest`, where another
item begins or the key ends. The run of items matches from `rest` on, and so it does from here. -/
structure RunsOn (whole cs text rest : List Char) : Prop where
  eq_append : cs = text ++ rest
  chars : Gives whole (.many segmentChar) cs (some ([], rest))
  pieces_eq : pieces cs = text.foldr Piece.push (pieces rest)
  no_plain : ∀ t ps, pieces rest ≠ .plain t :: ps
  rest_items : Gives whole (.many item) rest (some ((pieces rest).map Piece.found, []))
  items : Gives whole (.many item) cs (some ((pieces cs).map Piece.found, []))

/-- At the end of a key, and where an item other than a segment begins, there is no plain
character. -/
theorem RunsOn.of_segmentChar_fails {cs : List Char} (hfails : Gives whole segmentChar cs none)
    (hplain : ∀ t ps, pieces cs ≠ .plain t :: ps)
    (hitems : Gives whole (.many item) cs (some ((pieces cs).map Piece.found, []))) :
    RunsOn whole cs [] cs :=
  ⟨rfl, .many_stops hfails, rfl, hplain, hitems, hitems⟩

/-- One more plain character begins a segment, or makes the segment behind it longer. -/
theorem RunsOn.cons {c : Char} {cs text rest : List Char} (hc : IsPlain c cs)
    (h : RunsOn whole cs text rest) : RunsOn whole (c :: cs) (c :: text) rest := by
  have heq : c :: cs = (c :: text) ++ rest := congrArg (c :: ·) h.eq_append
  have hpieces : pieces (c :: cs) = (c :: text).foldr Piece.push (pieces rest) := by
    rw [pieces_plain hc, h.pieces_eq]
    rfl
  have hsegment : Gives whole segment (c :: cs) (some ([(Piece.plain (c :: text)).found], rest)) :=
    .named heq (.seq (gives_segmentChar hc) h.chars)
  have hitem : Gives whole item (c :: cs) (some ([(Piece.plain (c :: text)).found], rest)) :=
    .choice_second (separator_fails hc) (.choice_second (bracketed_fails hc) hsegment)
  refine ⟨heq, .many (gives_segmentChar hc) h.chars, hpieces, h.no_plain, h.rest_items, ?_⟩
  rw [hpieces, foldr_push h.no_plain]
  exact .many hitem h.rest_items

theorem exists_runsOn (whole cs : List Char) : ∃ text rest, RunsOn whole cs text rest := by
  induction cs using key_induction with
  | nil =>
    refine ⟨[], [], .of_segmentChar_fails segmentChar_fails_nil ?_ ?_⟩
    · intro t ps h
      rw [pieces_nil] at h
      cases h
    · rw [pieces_nil]
      exact .many_stops item_fails_nil
  | separator cs ih =>
    obtain ⟨_, _, ih⟩ := ih
    have hseparator : Gives whole separator ('_' :: '_' :: cs) _ := gives_separator cs
    refine ⟨[], _, .of_segmentChar_fails (.seq_fails (.absent_fails (.choice hseparator))) ?_ ?_⟩
    · intro t ps h
      rw [pieces_separator] at h
      cases h
    · rw [pieces_separator]
      exact .many (.choice hseparator) ih.items
  | bracket inside cs hinside ih =>
    obtain ⟨_, _, ih⟩ := ih
    have hseparator : Gives whole separator ('[' :: (inside ++ ']' :: cs)) none :=
      separator_fails_of_ne (by decide)
    have hbracketed : Gives whole bracketed ('[' :: (inside ++ ']' :: cs)) _ :=
      gives_bracketed hinside cs
    refine ⟨[], _, .of_segmentChar_fails
      (.seq_fails (.absent_fails (.choice_second hseparator hbracketed))) ?_ ?_⟩
    · intro t ps h
      rw [pieces_bracket hinside] at h
      cases h
    · rw [pieces_bracket hinside]
      exact .many (.choice_second hseparator (.choice hbracketed)) ih.items
  | plain c cs hplain ih =>
    obtain ⟨text, rest, ih⟩ := ih
    exact ⟨c :: text, rest, ih.cons hplain⟩

/-- **The run of items matches any text**, and the matches are its pieces. -/
theorem gives_items (whole cs : List Char) :
    Gives whole (.many item) cs (some ((pieces cs).map Piece.found, [])) := by
  obtain ⟨_, _, h⟩ := exists_runsOn whole cs
  exact h.items

/-! ### Whole keys -/

/-- A key is matched as a whole: its items, and behind them its end. -/
theorem gives_key (cs : List Char) : Gives cs key cs
    (some ([⟨.key, cs, (pieces cs).map Piece.found ++ [⟨.finish, [], []⟩]⟩], [])) := by
  have hfinish : Gives cs (.named Rule.finish .finish) [] (some ([⟨.finish, [], []⟩], [])) :=
    .named rfl .finish
  have hall : Gives cs (.seq .start (.seq (.many item) (.named Rule.finish .finish))) cs
      (some ([] ++ ((pieces cs).map Piece.found ++ [⟨.finish, [], []⟩]), [])) :=
    .seq .start (.seq (gives_items cs cs) hfinish)
  exact .named (by simp) hall

/-- The names in the matches are those in the pieces; only empty ones are left out. -/
theorem filterMap_name?_eq {ps : List Piece} (h : ∀ text, .plain text ∈ ps → text ≠ []) :
    ps.filterMap Piece.name? = (ps.map fun p => nameIn p.found).filter (· ≠ []) := by
  induction ps with
  | nil => rfl
  | cons p ps ih =>
    have hps := ih fun text htext => h text (List.mem_cons_of_mem p htext)
    match p with
    | .separator => exact hps
    | .bracket [] => exact hps
    | .bracket (c :: content) => exact congrArg ((c :: content) :: ·) hps
    | .plain [] => exact absurd rfl (h [] List.mem_cons_self)
    | .plain (c :: text) => exact congrArg ((c :: text) :: ·) hps

theorem segments_eq (key : String) : segments key =
    (((pieces key.toList).map fun p => nameIn p.found).filter (· ≠ [])).map String.ofList := by
  rw [segments, filterMap_name?_eq]
  intro text htext hnil
  exact name?_ne_nil_of_mem_pieces _ _ htext (by rw [hnil, Piece.name?])

/-- **The grammar accepts every key and loses no text.** On a whole key it has one outcome only, a
match that leaves nothing over. What is matched in it are separators, bracket groups and segments,
and then the end; their texts put together are the key. The segments of the key are the names in
them, in order, without empty ones. A segment is not empty and holds no separator, and the text of a
bracket group is one pair of brackets around a name with no closing bracket in it. -/
theorem gives_key_iff_and_segments (text : String) : ∃ found : List (Match Rule),
    (∀ outcome, Gives text.toList key text.toList outcome ↔
      outcome = some ([⟨.key, text.toList, found ++ [⟨.finish, [], []⟩]⟩], [])) ∧
    found.flatMap Match.text = text.toList ∧
    segments text = ((found.map nameIn).filter (· ≠ [])).map String.ofList ∧
    ∀ m ∈ found,
      m = ⟨.separator, ['_', '_'], []⟩ ∨
      (∃ content, m = ⟨.bracketed, '[' :: (content ++ [']']), [⟨.content, content, []⟩]⟩ ∧
        ']' ∉ content) ∨
      ∃ plain, m = ⟨.segment, plain, []⟩ ∧ plain ≠ [] ∧ ¬ ['_', '_'] <:+: plain := by
  refine ⟨(pieces text.toList).map Piece.found, fun outcome => ⟨fun h => ?_, ?_⟩, ?_, ?_, ?_⟩
  · exact h.unique (gives_key text.toList)
  · rintro rfl
    exact gives_key text.toList
  · have hspell : spell (pieces text.toList) = text.toList := spell_pieces text.toList
    rw [List.flatMap_map]
    simp only [Piece.text_found]
    exact hspell
  · rw [segments_eq, List.map_map]
    rfl
  · intro m hm
    obtain ⟨p, hp, rfl⟩ := List.mem_map.1 hm
    cases p with
    | separator => exact Or.inl rfl
    | bracket content => exact Or.inr (Or.inl ⟨content, rfl, not_mem_of_bracket_mem_pieces hp⟩)
    | plain plain =>
      refine Or.inr (Or.inr ⟨plain, rfl, ?_, not_infix_of_plain_mem_pieces hp⟩)
      rintro rfl
      exact name?_ne_nil_of_mem_pieces _ _ hp rfl

/-- Three underscores, an empty group, and a bracket that is not closed. -/
example : segments "a___[]b[c" = ["a", "_", "b[c"] := by cbv

end KeyGrammar

end Sieve.Filter
