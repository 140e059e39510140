import Sieve.Proofs.Schema.ArgumentText
import Sieve.Proofs.Schema.AttributeSteps

/-!
# The first argument

The first argument of an attribute is read in two ways: the grammar reads a value from tokens, and
its text can be cut out of the attribute word. Here the two are compared. The text shows the value:
it is the whole of it if that is a single token, and how a call or a list begins.

On the grammar's side this takes an invariant of the machine. What the first argument is stays as it
is once it is gathered, and its kind is settled before: by its opening bracket, or by its label.

## Main definitions

* `Attribute.State.Settled` — the first argument has a property, whatever is still to come
* `Attribute.Shows` — the texts that show a value

## Main results

* `Attribute.State.Settled.of_run` — what is settled of the first argument holds in the end
* `Attribute.exists_firstArgument?` — the text of the first argument shows its value
-/

namespace Sieve.Schema.Attribute

open Sieve.Text

/-! ### What the first argument will be -/

/-- The bracket has gathered an argument, and the first one has the property. -/
def Frame.Starts (P : Arg → Prop) : Frame → Prop
  | arguments (arg :: _) => P arg
  | _ => False

/-- What the bracket makes has the property, whatever it gathers. -/
def Frame.Makes (P : Arg → Prop) (label : Option String) : Frame → Prop
  | arguments _ => False
  | call name _ => ∀ args, P ⟨label, .call name args⟩
  | list _ => ∀ items, P ⟨label, .list items⟩

/-- The first argument has the property: it is gathered, or its bracket is open and makes nothing
without it. -/
def Settled (P : Arg → Prop) : List (Frame × Option String) → Frame → Prop
  | [], frame => frame.Starts P
  | (f, label) :: outer, frame =>
    Settled P outer f ∨ (outer = [] ∧ f = .arguments [] ∧ frame.Makes P label)

/-- The label in front of the item that is being read. -/
def Place.label? : Place → Option String
  | labelled label => some label
  | word label _ => label
  | _ => none

/-- The first argument has the property, whatever is still to come: it is gathered, its bracket is
open, or its label is read. -/
def State.Settled (P : Arg → Prop) : State → Prop
  | finished args => ∃ arg rest, args = arg :: rest ∧ P arg
  | inside outer frame place => Attribute.Settled P outer frame ∨
      (outer = [] ∧ frame = .arguments [] ∧
        ∃ label, place.label? = some label ∧ ∀ v, P ⟨some label, v⟩)

section

variable {P : Arg → Prop} {outer : List (Frame × Option String)} {frame : Frame}
  {label : Option String} {t : Token} {s s' : State}

theorem Frame.Starts.add (h : frame.Starts P) (label : Option String) (v : Value) :
    (frame.add label v).Starts P := by
  match frame, h with
  | .arguments (_ :: _), h => exact h

theorem Frame.Makes.add (h : frame.Makes P label) (label' : Option String) (v : Value) :
    (frame.add label' v).Makes P label := by
  cases frame with
  | arguments done => exact h
  | call name done => exact h
  | list done => exact h

theorem Settled.add (h : Settled P outer frame) (label : Option String) (v : Value) :
    Settled P outer (frame.add label v) := by
  cases outer with
  | nil => exact Frame.Starts.add h label v
  | cons p outer => exact h.imp_right fun ⟨houter, hf, hmakes⟩ => ⟨houter, hf, hmakes.add label v⟩

theorem Settled.of_closeFrame (h : Settled P outer frame) (hs : closeFrame outer frame = some s) :
    s.Settled P := by
  match outer, frame, h with
  | [], .arguments (arg :: done), h =>
    cases hs
    exact ⟨arg, done, rfl, h⟩
  | (f, label) :: outer, .call name done, h =>
    cases hs
    rcases h with h | ⟨rfl, rfl, hmakes⟩
    · exact .inl (h.add label _)
    · exact .inl (hmakes done)
  | (f, label) :: outer, .list done, h =>
    cases hs
    rcases h with h | ⟨rfl, rfl, hmakes⟩
    · exact .inl (h.add label _)
    · exact .inl (hmakes done)

theorem Settled.of_beginItem (h : Settled P outer frame)
    (hs : beginItem outer frame label t = some s) : s.Settled P := by
  cases t with
  | literal v =>
    cases hs
    exact .inl (h.add label v)
  | word name =>
    cases hs
    exact .inl h
  | openBracket =>
    cases hs
    exact .inl (.inl h)
  | _ => cases hs

/-- What is settled stays so, wherever the next token stands. -/
theorem Settled.of_move {place : Place} (h : Settled P outer frame)
    (hmove : Move outer frame place t s) : s.Settled P := by
  induction hmove with
  | begins _ hs => exact h.of_beginItem hs
  | closes _ _ hs => exact h.of_closeFrame hs
  | comma => exact .inl h
  | lastComma => exact .inl h
  | call _ => exact .inl (.inl h)
  | label _ => exact .inl h
  | word _ ih => exact ih (h.add _ _)

/-- The item behind a label is begun or done, and keeps the label. -/
theorem State.Settled.of_move_of_label {place : Place} {name : String}
    (hname : place.label? = some name) (hall : ∀ v, P ⟨some name, v⟩)
    (hmove : Move [] (.arguments []) place t s) : s.Settled P := by
  cases hmove with
  | begins hplace hs =>
    cases hplace with
    | labelled label =>
      obtain rfl : label = name := Option.some.inj hname
      cases t with
      | literal v =>
        cases hs
        exact .inl (hall v)
      | word other =>
        cases hs
        exact .inr ⟨rfl, rfl, label, rfl, hall⟩
      | openBracket =>
        cases hs
        exact .inl (.inr ⟨rfl, rfl, fun items => hall _⟩)
      | _ => cases hs
    | _ => cases hname
  | closes hends _ _ => cases hends <;> cases hname
  | @call _ label other _ =>
    obtain rfl : label = some name := hname
    exact .inl (.inr ⟨rfl, rfl, fun args => hall _⟩)
  | @word _ label other _ _ hmove =>
    obtain rfl : label = some name := hname
    have hstarts : Attribute.Settled P [] (.arguments [⟨some name, wordValue other⟩]) := hall _
    exact hstarts.of_move hmove
  | _ => cases hname

/-- **What is settled of the first argument stays so.** -/
theorem State.Settled.step (h : s.Settled P) (hs : s.step t = some s') : s'.Settled P := by
  cases s with
  | finished args => cases hs
  | inside outer frame place =>
    rcases h with h | ⟨rfl, rfl, name, hname, hall⟩
    · exact h.of_move (move_of_step hs)
    · exact .of_move_of_label hname hall (move_of_step hs)

theorem State.Settled.run {ts : List Token} (h : s.Settled P)
    (hrun : ts.foldlM State.step s = some s') : s'.Settled P := by
  induction ts generalizing s with
  | nil =>
    cases hrun
    exact h
  | cons t ts ih =>
    rw [List.foldlM_cons] at hrun
    obtain ⟨s₁, hstep, hrun⟩ := Option.bind_eq_some_iff.1 hrun
    exact ih (h.step hstep) hrun

/-- **What is settled of the first argument holds in the end.** -/
theorem State.Settled.of_run {ts : List Token} {arg : Arg} {args : List Arg} (h : s.Settled P)
    (hrun : ts.foldlM State.step s = some (.finished (arg :: args))) : P arg := by
  obtain ⟨_, _, heq, harg⟩ := h.run hrun
  cases heq
  exact harg

end

/-! ### The end of the arguments -/

section

variable {outer : List (Frame × Option String)} {frame : Frame} {place : Place} {t : Token}
  {ts : List Token} {args : List Arg} {cs : List Char}

/-- Only a closing parenthesis ends the arguments. -/
theorem eq_closeParen_of_move {s : State} (h : Move outer frame place t s)
    (hs : s = .finished args) : t = .closeParen := by
  induction h with
  | @begins _ _ _ t _ _ hbegin => cases t <;> cases hbegin <;> cases hs
  | @closes frame _ t _ _ hclosed hclose =>
    match outer, frame, hclosed, hclose with
    | [], .arguments done, hclosed, hclose =>
      cases t with
      | closeParen => rfl
      | _ => cases hclosed
    | (f, label) :: outer, .call name done, _, hclose =>
      cases hclose
      cases hs
    | (f, label) :: outer, .list done, _, hclose =>
      cases hclose
      cases hs
  | word _ ih => exact ih hs
  | _ => cases hs

/-- Inside of brackets a run takes one more token. -/
theorem exists_move_of_run
    (h : ts.foldlM State.step (.inside outer frame place) = some (.finished args)) :
    ∃ t rest s, ts = t :: rest ∧ Move outer frame place t s ∧
      rest.foldlM State.step s = some (.finished args) := by
  cases ts with
  | nil => cases h
  | cons t rest =>
    rw [List.foldlM_cons] at h
    obtain ⟨s, hstep, hrun⟩ := Option.bind_eq_some_iff.1 h
    exact ⟨t, rest, s, rfl, move_of_step hstep, hrun⟩

/-- Behind its arguments an attribute has no tokens. -/
theorem eq_nil_of_run_finished {done : List Arg} {s : State}
    (h : ts.foldlM State.step (.finished done) = some s) : ts = [] ∧ s = .finished done := by
  cases ts with
  | nil =>
    cases h
    exact ⟨rfl, rfl⟩
  | cons t rest => cases h

/-- **The last parenthesis of the text ends the arguments.** -/
theorem exists_of_run (hts : tokens? cs = some ts)
    (h : ts.foldlM State.step (.inside outer frame place) = some (.finished args)) :
    ∃ text behind, cs = text ++ ')' :: behind ∧ ')' ∉ behind := by
  induction ts generalizing cs outer frame place with
  | nil => cases h
  | cons t ts ih =>
    obtain ⟨_, _, s, heq, hmove, hrun⟩ := exists_move_of_run h
    cases heq
    obtain ⟨gap, piece, rest, hgap, hspelled, rfl, hrest⟩ := exists_spelled_of_tokens? hts
    cases s with
    | finished done =>
      obtain rfl := eq_closeParen_of_move hmove rfl
      obtain ⟨rfl, -⟩ := eq_nil_of_run_finished hrun
      cases hspelled
      exact ⟨gap, rest, rfl, notMem_of_isGap (isGap_of_tokens?_eq_nil hrest) (by decide)⟩
    | inside outer' frame' place' =>
      obtain ⟨text, behind, rfl, hbehind⟩ := ih hrest hrun
      exact ⟨gap ++ (piece ++ text), behind, by simp, hbehind⟩

/-- Behind an item the text of the argument has only blanks. -/
theorem exists_of_move_after {done : List Arg} {s : State} (hts : tokens? cs = some (t :: ts))
    (hmove : Move [] (.arguments done) .after t s)
    (hrun : ts.foldlM State.step s = some (.finished args)) :
    ∃ text behind, cs = text ++ ')' :: behind ∧ ')' ∉ behind ∧
      ∀ c ∈ untilComma .code 0 text, isGap c = true := by
  obtain ⟨gap, piece, rest, hgap, hspelled, rfl, hrest⟩ := exists_spelled_of_tokens? hts
  cases hmove with
  | begins hplace _ => cases hplace
  | closes _ hclosed hclose =>
    cases hclose
    obtain rfl : t = .closeParen := by
      cases t with
      | closeParen => rfl
      | _ => cases hclosed
    obtain ⟨rfl, -⟩ := eq_nil_of_run_finished hrun
    cases hspelled
    refine ⟨gap ++ [], rest, by simp,
      notMem_of_isGap (isGap_of_tokens?_eq_nil hrest) (by decide), ?_⟩
    rw [untilComma_of_isGap hgap]
    simpa [untilComma] using hgap
  | comma =>
    cases hspelled
    obtain ⟨text, behind, rfl, hbehind⟩ := exists_of_run hrest hrun
    refine ⟨gap ++ ',' :: text, behind, by simp, hbehind, ?_⟩
    rw [untilComma_of_isGap hgap]
    simpa [untilComma] using hgap

end

/-! ### What the text shows -/

/-- The texts that show a value: how a single token is written, and how a call or a list begins. -/
inductive Shows : Value → List Char → Prop where
  | literal {v : Value} {cs : List Char} : (Token.literal v).Spelled cs → Shows v cs
  | word {name : List Char} : isIdent name = true → Shows (wordValue (String.ofList name)) name
  | call {name : String} {args : List Value} {c : Char} {cs : List Char} :
      isIdentStart c = true → '(' ∈ cs → Shows (.call name args) (c :: cs)
  | list {items : List Value} {cs : List Char} : Shows (.list items) ('[' :: cs)

/-- **A text shows the same value without the blanks around it.** -/
theorem Shows.trimChars {v : Value} {before cs behind : List Char} (h : Shows v cs)
    (hbefore : ∀ c ∈ before, isGap c = true) (hbehind : ∀ c ∈ behind, isGap c = true) :
    Shows v (Text.trimChars (before ++ (cs ++ behind))) := by
  replace hbefore : ∀ c ∈ before, isBlank c = true := fun c hc => isBlank_of_isGap (hbefore c hc)
  replace hbehind : ∀ c ∈ behind, isBlank c = true := fun c hc => isBlank_of_isGap (hbehind c hc)
  cases h with
  | literal hspelled =>
    have htrim : Text.trimChars (before ++ (cs ++ behind)) = cs := by
      cases hspelled with
      | @string inside hinside =>
        -- blanks inside of the quotes stay
        refine trimChars_append hbefore hbehind (List.cons_ne_nil _ _) (by rintro c ⟨⟩; decide) ?_
        rw [← List.cons_append, List.getLast?_concat]
        rintro c ⟨⟩
        decide
      | number n =>
        refine trimChars_of_forall hbefore hbehind ?_ fun c => isBlank_of_mem_text
        obtain ⟨c, cs, hwhole, -⟩ := n.exists_head_whole
        simp [Decimal.Numeral.text, hwhole]
    rw [htrim]
    exact .literal hspelled
  | word hname =>
    rw [trimChars_of_forall hbefore hbehind]
    · exact .word hname
    · rintro rfl
      cases hname
    · exact fun c hc => isBlank_of_isIdentRest (isIdentRest_of_isIdent hname c hc)
  | call hc hparen =>
    have hblank := isBlank_of_isIdentRest (isIdentRest_of_isIdentStart hc)
    rw [List.cons_append, trimChars_append_cons hbefore hblank]
    exact .call hc (mem_dropBlankEnd (List.mem_append_left _ hparen) (by decide))
  | list =>
    rw [List.cons_append, trimChars_append_cons hbefore (by decide)]
    exact .list

/-- Of the text behind an opening parenthesis, what is cut out in front shows the value, perhaps
with blanks around. -/
def ShowsFirst (v : Value) (inside : List Char) : Prop :=
  ∃ text behind before cs after, inside = text ++ ')' :: behind ∧ ')' ∉ behind ∧
    untilComma .code 0 text = before ++ (cs ++ after) ∧ Shows v cs ∧
    (∀ c ∈ before, isGap c = true) ∧ ∀ c ∈ after, isGap c = true

section

variable {before rest : List Char} {t : Token} {ts : List Token} {s : State} {v : Value}
  {args : List Arg}

/-- An item of one token is shown in full. -/
theorem showsFirst_of_spelled {piece : List Char} {next : Token}
    (hbefore : ∀ c ∈ before, isGap c = true) (hspelled : t.Spelled piece) (hmark : t.isMark = false)
    (hshows : Shows v piece) (hts : tokens? rest = some (next :: ts))
    (hmove : Move [] (.arguments [⟨none, v⟩]) .after next s)
    (hrun : ts.foldlM State.step s = some (.finished args)) :
    ShowsFirst v (before ++ (piece ++ rest)) := by
  obtain ⟨text, behind, rfl, hbehind, hgap⟩ := exists_of_move_after hts hmove hrun
  refine ⟨before ++ (piece ++ text), behind, before, piece, _, by simp, hbehind, ?_, hshows,
    hbefore, hgap⟩
  rw [untilComma_of_isGap hbefore, untilComma_of_spelled hspelled hmark]

/-- A list shows its bracket. -/
theorem showsFirst_list {items : List Value} {outer : List (Frame × Option String)}
    {frame : Frame} {place : Place} (hbefore : ∀ c ∈ before, isGap c = true)
    (hts : tokens? rest = some ts)
    (hrun : ts.foldlM State.step (.inside outer frame place) = some (.finished args)) :
    ShowsFirst (.list items) (before ++ '[' :: rest) := by
  obtain ⟨text, behind, rfl, hbehind⟩ := exists_of_run hts hrun
  refine ⟨before ++ '[' :: text, behind, before, '[' :: untilComma .code 1 text, [], by simp,
    hbehind, ?_, .list, hbefore, by simp⟩
  rw [untilComma_of_isGap hbefore, List.append_nil]
  rfl

/-- A call shows its name, and somewhere behind that its parenthesis. -/
theorem showsFirst_call {name gap : List Char} {callee : String} {items : List Value}
    {outer : List (Frame × Option String)} {frame : Frame} {place : Place}
    (hbefore : ∀ c ∈ before, isGap c = true) (hname : isIdent name = true)
    (hgap : ∀ c ∈ gap, isGap c = true) (hts : tokens? rest = some ts)
    (hrun : ts.foldlM State.step (.inside outer frame place) = some (.finished args)) :
    ShowsFirst (.call callee items) (before ++ (name ++ (gap ++ '(' :: rest))) := by
  obtain ⟨text, behind, rfl, hbehind⟩ := exists_of_run hts hrun
  obtain ⟨c, cs, rfl, hc, -⟩ := exists_head_of_isIdent hname
  have hparen : untilComma .code 0 (gap ++ '(' :: text) = gap ++ '(' :: untilComma .code 1 text :=
    untilComma_of_isGap hgap 0 _
  refine ⟨before ++ (c :: cs ++ (gap ++ '(' :: text)), behind, before,
    c :: (cs ++ (gap ++ '(' :: untilComma .code 1 text)), [], by simp, hbehind, ?_,
    .call hc (by simp), hbefore, by simp⟩
  rw [untilComma_of_isGap hbefore, untilComma_of_spelled (.word hname) rfl, hparen,
    List.append_nil, List.cons_append]

/-- A word is shown in full, unless it is the name of a call; a label would not be the value. -/
theorem showsFirst_word {name : List Char} (hbefore : ∀ c ∈ before, isGap c = true)
    (hname : isIdent name = true) (hts : tokens? rest = some ts)
    (hrun : ts.foldlM State.step (.inside [] (.arguments []) (.word none (String.ofList name))) =
      some (.finished (⟨none, v⟩ :: args))) :
    ShowsFirst v (before ++ (name ++ rest)) := by
  obtain ⟨next, ts, s, rfl, hmove, hrun⟩ := exists_move_of_run hrun
  cases hmove with
  | begins hplace _ => cases hplace
  | closes hends _ _ => cases hends
  | call _ =>
    obtain ⟨gap, piece, rest, hgap, hspelled, rfl, hrest⟩ := exists_spelled_of_tokens? hts
    cases hspelled
    have hsettled : State.Settled (fun arg => ∃ args, arg.value = .call (String.ofList name) args)
        (.inside [(.arguments [], none)] (.call (String.ofList name) []) .first) :=
      .inl (.inr ⟨rfl, rfl, fun args => ⟨args, rfl⟩⟩)
    obtain ⟨items, heq⟩ := hsettled.of_run hrun
    obtain rfl : v = .call (String.ofList name) items := heq
    exact showsFirst_call hbefore hname hgap hrest hrun
  | label _ =>
    have hsettled : State.Settled (fun arg => arg.label.isSome = true)
        (.inside [] (.arguments []) (.labelled (String.ofList name))) :=
      .inr ⟨rfl, rfl, String.ofList name, rfl, fun v => rfl⟩
    cases hsettled.of_run hrun
  | word hmove =>
    have hstarts : Settled (· = ⟨none, wordValue (String.ofList name)⟩) []
        (.arguments [⟨none, wordValue (String.ofList name)⟩]) := rfl
    have heq := (hstarts.of_move hmove).of_run hrun
    obtain rfl : v = wordValue (String.ofList name) := congrArg Arg.value heq
    exact showsFirst_of_spelled hbefore (.word hname) rfl (.word hname) hts hmove hrun

end

/-- **The text of the first argument, in front of the others, shows its value.** The first token
says what it is, or a parenthesis or a colon behind it does. -/
theorem showsFirst_of_run {inside : List Char} {ts : List Token} {v : Value} {args : List Arg}
    (hts : tokens? inside = some ts)
    (hrun : ts.foldlM State.step (.inside [] (.arguments []) .first) =
      some (.finished (⟨none, v⟩ :: args))) : ShowsFirst v inside := by
  obtain ⟨t, ts, s, rfl, hmove, hrun⟩ := exists_move_of_run hrun
  obtain ⟨before, piece, rest, hbefore, hspelled, rfl, hrest⟩ := exists_spelled_of_tokens? hts
  cases hmove with
  | begins hplace hbegin =>
    cases hplace
    cases t with
    | literal u =>
      cases hbegin
      have hsettled : State.Settled (· = ⟨none, u⟩)
          (.inside [] (.arguments [⟨none, u⟩]) .after) := .inl rfl
      obtain rfl : v = u := congrArg Arg.value (hsettled.of_run hrun)
      obtain ⟨next, ts, s, rfl, hmove, hrun⟩ := exists_move_of_run hrun
      exact showsFirst_of_spelled hbefore hspelled rfl (.literal hspelled) hrest hmove hrun
    | word name =>
      cases hbegin
      cases hspelled with
      | word hname => exact showsFirst_word hbefore hname hrest hrun
    | openBracket =>
      cases hbegin
      have hsettled : State.Settled (fun arg => ∃ items, arg.value = .list items)
          (.inside [(.arguments [], none)] (.list []) .first) :=
        .inl (.inr ⟨rfl, rfl, fun items => ⟨items, rfl⟩⟩)
      obtain ⟨items, rfl⟩ := hsettled.of_run hrun
      cases hspelled
      exact showsFirst_list hbefore hrest hrun
    | _ => cases hbegin
  | closes _ _ hclose =>
    cases hclose
    cases (eq_nil_of_run_finished hrun).2
  | lastComma =>
    obtain ⟨next, ts, s, rfl, hmove, hrun⟩ := exists_move_of_run hrun
    cases hmove with
    | begins hplace _ => cases hplace
    | closes _ _ hclose =>
      cases hclose
      cases (eq_nil_of_run_finished hrun).2

/-- **The text of the first argument shows its value**, if it has no label. -/
theorem exists_firstArgument? {word : String} {a : Attribute} {v : Value} {args : List Arg}
    (h : parse? word = some a) (hargs : a.args = ⟨none, v⟩ :: args) :
    ∃ text, firstArgument? word = some text ∧ Shows v text.toList := by
  obtain ⟨front, behind, ts, hword, hfront, hts, hread⟩ := exists_of_parse? h
  rw [hargs] at hread
  match ts, hts, hread with
  | .openParen :: ts, hts, hread =>
    obtain ⟨s, hrun, hresult⟩ := Option.bind_eq_some_iff.1 hread
    obtain rfl : s = .finished (⟨none, v⟩ :: args) := by
      cases s with
      | finished done => exact congrArg State.finished (Option.some.inj hresult)
      | inside outer frame place => cases hresult
    obtain ⟨gap, piece, inside, hgap, hspelled, rfl, hinside⟩ := exists_spelled_of_tokens? hts
    cases hspelled
    obtain ⟨text, rest, before, cs, after, rfl, hrest, huntil, hshows, hbefore, hafter⟩ :=
      showsFirst_of_run hinside hrun
    have hparen : '(' ∉ front ++ gap := by
      simpa [hfront] using notMem_of_isGap hgap (by decide)
    have hinner : argumentText? word.toList = some text := by
      rw [hword, ← List.append_assoc]
      exact argumentText?_append hparen hrest
    refine ⟨_, by rw [firstArgument?, hinner, Option.map_some], ?_⟩
    rw [String.toList_ofList, huntil]
    exact hshows.trimChars hbefore hafter

end Sieve.Schema.Attribute
