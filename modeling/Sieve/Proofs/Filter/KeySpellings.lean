import Mathlib.Data.List.Infix
import Sieve.Proofs.Filter.FlatKeys
import Sieve.Proofs.Text.Runs

/-!
# The spellings of a key

A key can be written in many ways. The first segment stands alone, and each further one, the
operator at the end among them, stands behind a separator or inside of brackets. Whichever is chosen
for each of them, the key reads back the same, as long as no segment runs into what surrounds it: a
segment holds no bracket and no separator and does not end in an underscore. An underscore in front
is fine, since a separator is cut off as early as possible.

A path without operator must not end in a field that is spelled like one.

## Main definitions

* `Detachable` — a segment that can be cut out of any spelling
* `Encoding`, `spelling` — how a further segment is written, and a whole key
* `Key.Respellable` — a key that every spelling gives back

## Main results

* `pieces_append_bracket` — a bracket group behind a text is cut off
* `segments_spelling` — the segments of a spelling are those that were written
* `Key.parse_text_and_spellings` — a key reads back from all of its spellings
-/

namespace Sieve.Filter

/-! ### Segments -/

/-- The segment can be cut out of any spelling: what a separator can follow, with no closing bracket
and no separator inside. -/
structure Detachable (segment : String) : Prop extends Joinable segment where
  no_closing : ']' ∉ segment.toList
  no_separator : ¬ ['_', '_'] <:+: segment.toList

instance (segment : String) : Decidable (Detachable segment) :=
  decidable_of_iff
    (Joinable segment ∧ ']' ∉ segment.toList ∧ ¬ ['_', '_'] <:+: segment.toList)
    ⟨fun h => ⟨h.1, h.2.1, h.2.2⟩, fun h => ⟨h.toJoinable, h.no_closing, h.no_separator⟩⟩

theorem Operator.detachable_name (op : Operator) : Detachable op.name := by
  cases op with
  | compare op => cases op <;> decide
  | member op => cases op <;> decide
  | contains mode => cases mode <;> decide
  | or => decide
  | isNull => decide
  | isEmpty => decide

theorem Operator.ofName?_name (op : Operator) : ofName? op.name = some op := by
  cases op with
  | compare op => cases op <;> decide
  | member op => cases op <;> decide
  | contains mode => cases mode <;> decide
  | or => decide
  | isNull => decide
  | isEmpty => decide

/-- A text with no opening bracket and no separator need not be cut. -/
theorem needsCutting_eq_false {cs : List Char} (hbracket : '[' ∉ cs)
    (hsep : ¬ ['_', '_'] <:+: cs) : needsCutting cs = false := by
  induction cs with
  | nil => rfl
  | cons c cs ih =>
    have hc : c ≠ '[' := fun e => hbracket (by simp [e])
    have hcs : '[' ∉ cs := fun h => hbracket (List.mem_cons_of_mem _ h)
    have hrest : ¬ ['_', '_'] <:+: cs := fun h => hsep (List.infix_cons h)
    have hhead : ¬ (c = '_' ∧ cs.head? = some '_') := by
      rintro ⟨rfl, hhead⟩
      obtain ⟨ds, rfl⟩ := List.head?_eq_some_iff.1 hhead
      exact hsep (List.prefix_append ['_', '_'] ds).isInfix
    rw [needsCutting, ih hcs hrest]
    simpa [hc] using hhead

/-- On its own, such a segment is one piece. -/
theorem Detachable.pieces_eq {segment : String} (h : Detachable segment) :
    pieces segment.toList = [.plain segment.toList] :=
  pieces_of_needsCutting_eq_false (needsCutting_eq_false h.no_bracket h.no_separator)
    (by simpa using h.ne_empty)

/-! ### Spellings -/

/-- How a segment is written behind others. -/
inductive Encoding where
  /-- Behind a separator. -/
  | separated
  /-- In brackets. -/
  | bracketed
deriving Repr, DecidableEq

/-- The segment as it is written. -/
def Encoding.write (e : Encoding) (segment : List Char) : List Char :=
  match e with
  | separated => '_' :: '_' :: segment
  | bracketed => '[' :: (segment ++ [']'])

/-- The segments of a key as they are written behind the first. -/
def written (segments : List (Encoding × String)) : List Char :=
  segments.flatMap fun s => s.1.write s.2.toList

/-- A key whose first segment stands alone, with the encoding of each further one. -/
def spelling (first : String) (further : List (Encoding × String)) : String :=
  String.ofList (first.toList ++ written further)

/-- A bracket group at the front is cut off at its first closing bracket. -/
theorem pieces_bracket {content : List Char} (hcontent : ']' ∉ content) (ds : List Char) :
    pieces ('[' :: (content ++ ']' :: ds)) = .bracket content :: pieces ds := by
  have hclosed : ']' ∈ content ++ ']' :: ds := by simp
  rw [pieces, if_neg fun h => absurd h.1 (by decide), if_pos ⟨rfl, hclosed⟩,
    Text.takeWhile_ne_append_cons hcontent, Text.dropWhile_ne_append_cons hcontent]
  rfl

/-- **A bracket group behind a text is cut off**, if the text opens no bracket itself. -/
theorem pieces_append_bracket {cs content : List Char} (hcs : '[' ∉ cs) (hcontent : ']' ∉ content)
    (ds : List Char) : pieces (cs ++ '[' :: (content ++ ']' :: ds)) =
      pieces cs ++ .bracket content :: pieces ds := by
  induction cs using pieces.induct with
  | case1 => rw [pieces.eq_1, List.nil_append, List.nil_append, pieces_bracket hcontent]
  | case2 c cs hsep ih =>
    obtain ⟨rfl, hhead⟩ := hsep
    obtain ⟨cs, rfl⟩ := List.head?_eq_some_iff.1 hhead
    have hrest : '[' ∉ cs := fun h => hcs (by simp [h])
    rw [List.cons_append, pieces, if_pos ⟨rfl, rfl⟩, pieces, if_pos ⟨rfl, rfl⟩]
    exact congrArg (Piece.separator :: ·) (ih hrest)
  | case3 c cs hsep hopen ih => exact absurd (by simp [hopen.1]) hcs
  | case4 c cs hsep hopen ih =>
    have hc : c ≠ '[' := fun e => hcs (by simp [e])
    have hrest : '[' ∉ cs := fun h => hcs (List.mem_cons_of_mem _ h)
    rw [List.cons_append, pieces, if_neg ?_, if_neg fun h => hc h.1, ih hrest, pieces.eq_2 c,
      if_neg hsep, if_neg hopen]
    · cases cs with
      | nil =>
        rw [pieces.eq_1]
        rfl
      | cons d es => exact Piece.push_append (pieces_ne_nil (List.cons_ne_nil d es)) c _
    · -- what stands behind `c` is in the text or is the bracket
      cases cs with
      | nil => simp
      | cons d es => exact hsep

/-- The names in the pieces of a spelling are those of the first text and then the segments written
behind it. The first text may be empty: so it is behind a bracket group. -/
theorem filterMap_name?_pieces_append_written {further : List (Encoding × String)}
    (h : ∀ s ∈ further, Detachable s.2) {cs : List Char} (hbracket : '[' ∉ cs)
    (hlast : cs.getLast? ≠ some '_') :
    (pieces (cs ++ written further)).filterMap Piece.name? =
      (pieces cs).filterMap Piece.name? ++ further.map fun s => s.2.toList := by
  induction further generalizing cs with
  | nil => simp [written]
  | cons s further ih =>
    obtain ⟨hs, hfurther⟩ := List.forall_mem_cons.1 h
    obtain ⟨e, segment⟩ := s
    have hwritten : written ((e, segment) :: further) =
        e.write segment.toList ++ written further := List.flatMap_cons
    cases e with
    | separated =>
      rw [hwritten, Encoding.write, List.cons_append, List.cons_append,
        pieces_append_separator hbracket hlast, List.filterMap_append,
        List.filterMap_cons_none rfl, ih hfurther hs.no_bracket hs.no_underscore, hs.pieces_eq]
      rfl
    | bracketed =>
      have hrest : (pieces ([] ++ written further)).filterMap Piece.name? = _ :=
        ih hfurther (by simp) (by simp)
      have hcontent : (Piece.bracket segment.toList).name? = some segment.toList := by
        have hne : segment.toList ≠ [] := by simpa using hs.ne_empty
        obtain ⟨c, ds, heq⟩ := List.exists_cons_of_ne_nil hne
        rw [heq]
        rfl
      rw [pieces.eq_1, List.nil_append] at hrest
      rw [hwritten, Encoding.write, List.cons_append, List.append_assoc, List.singleton_append,
        pieces_append_bracket hbracket hs.no_closing, List.filterMap_append,
        List.filterMap_cons_some hcontent, hrest]
      rfl

/-- **The segments of a spelling are those that were written**, in whatever encodings. -/
theorem segments_spelling {first : String} {further : List (Encoding × String)}
    (hfirst : Detachable first) (h : ∀ s ∈ further, Detachable s.2) :
    segments (spelling first further) = first :: further.map Prod.snd := by
  have hnames := filterMap_name?_pieces_append_written h hfirst.no_bracket hfirst.no_underscore
  rw [segments, spelling, String.toList_ofList, hnames, hfirst.pieces_eq]
  simp [Piece.name?, Function.comp_def]

/-- Segments joined by separators are the spelling that encodes all further ones so. -/
theorem flatKey_cons (first : String) (further : List String) :
    flatKey (first :: further) = spelling first (further.map fun s => (.separated, s)) := by
  rw [← String.toList_inj, spelling, String.toList_ofList]
  induction further generalizing first with
  | nil => simp [flatKey, written]
  | cons next further ih =>
    rw [toList_flatKey_cons_cons, ih]
    rfl

/-! ### Keys -/

namespace Key

/-- Every spelling of the key gives it back: it has a field, all fields can be cut out of any
spelling, and if there is no operator, the last field is not spelled like one. -/
structure Respellable (k : Key) : Prop where
  fields_ne_nil : k.fields ≠ []
  detachable : ∀ field ∈ k.fields, Detachable field
  no_operator : k.operator = none → ∀ field ∈ k.fields.getLast?, Operator.ofName? field = none

instance (k : Key) : Decidable k.Respellable :=
  decidable_of_iff
    (k.fields ≠ [] ∧ (∀ field ∈ k.fields, Detachable field) ∧
      (k.operator = none → ∀ field ∈ k.fields.getLast?, Operator.ofName? field = none))
    ⟨fun h => ⟨h.1, h.2.1, h.2.2⟩, fun h => ⟨h.fields_ne_nil, h.detachable, h.no_operator⟩⟩

variable {k : Key}

theorem Respellable.detachable_of_mem_path (h : k.Respellable) :
    ∀ segment ∈ k.path, Detachable segment := by
  intro segment hmem
  rw [path, List.mem_append] at hmem
  rcases hmem with hfield | hop
  · exact h.detachable segment hfield
  · obtain ⟨op, -, rfl⟩ : ∃ op, k.operator = some op ∧ op.name = segment := by simpa using hop
    exact op.detachable_name

/-- The operator comes off the end of a key's path, and no field does. -/
theorem Respellable.splitOperator_path (h : k.Respellable) :
    splitOperator k.path = (k.fields, k.operator) := by
  cases hop : k.operator with
  | none =>
    have hlast : k.fields.getLast?.bind Operator.ofName? = none :=
      Option.bind_eq_none_iff.2 fun field hfield => h.no_operator hop field hfield
    rw [path, hop, Option.map_none, Option.toList_none, List.append_nil, splitOperator, hlast]
  | some op =>
    rw [path, hop, Option.map_some, Option.toList_some, splitOperator_concat, op.ofName?_name]
    exact if_neg h.fields_ne_nil

/-- A text with the segments of the key is read as the key. -/
theorem Respellable.parse_of_segments (h : k.Respellable) {text : String}
    (hsegments : segments text = k.path) : parse text = k := by
  rw [parse, hsegments, h.splitOperator_path]

/-- **A key reads back from all of its spellings**: from the text that joins its segments by
separators, and from each one that encodes the segments behind the first either way. -/
theorem parse_text_and_spellings (h : k.Respellable) :
    parse k.text = k ∧ ∀ first further, first :: further.map Prod.snd = k.path →
      parse (spelling first further) = k := by
  have hspelling : ∀ first further, first :: further.map Prod.snd = k.path →
      parse (spelling first further) = k := by
    intro first further hpath
    have hall := h.detachable_of_mem_path
    rw [← hpath, List.forall_mem_cons, List.forall_mem_map] at hall
    exact h.parse_of_segments ((segments_spelling hall.1 hall.2).trans hpath)
  refine ⟨?_, hspelling⟩
  have hne : k.path ≠ [] := List.append_ne_nil_of_left_ne_nil h.fields_ne_nil _
  obtain ⟨first, further, hpath⟩ := List.exists_cons_of_ne_nil hne
  have htext : k.text = spelling first (further.map fun s => (.separated, s)) := by
    rw [← flatKey_cons, ← hpath]
    rfl
  rw [htext]
  refine hspelling first _ ?_
  rw [hpath, List.map_map]
  simp [Function.comp_def]

/-- Fields with an underscore in front or inside, and one that is spelled like an operator. -/
def createdBefore : Key := ⟨["_author", "in", "created_at"], some (.compare .lte)⟩

theorem parse_spellings_createdBefore :
    createdBefore.Respellable ∧
      parse "_author__in__created_at__lte" = createdBefore ∧
      parse "_author[in]__created_at[lte]" = createdBefore := by
  have hspellable : createdBefore.Respellable := by decide
  obtain ⟨htext, hspellings⟩ := parse_text_and_spellings hspellable
  exact ⟨hspellable, htext, hspellings "_author"
    [(.bracketed, "in"), (.separated, "created_at"), (.bracketed, "lte")] rfl⟩

end Key

end Sieve.Filter
