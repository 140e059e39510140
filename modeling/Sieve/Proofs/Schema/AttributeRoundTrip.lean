import Sieve.Decimal.Layout
import Sieve.Proofs.Schema.AttributeSteps
import Sieve.Proofs.Schema.AttributeTokens

/-!
# Reading attributes back

An attribute is written with its arguments in parentheses, and any blanks in front of each token
inside of them. Lists and calls are nested to any depth, so what is shown of a value is what its
tokens do to the machine wherever an item may begin: they add the value to the innermost bracket.
The stack below is never looked at.

Doubles are left out. One without a fraction would read back as a whole number.

## Main definitions

* `Attribute.render` — an attribute as text
* `Attribute.Value.Writable`, `Attribute.Writable` — what can be read back
* `Attribute.Reads` — what tokens do to the machine wherever an item may begin

## Main results

* `Attribute.tokens?_spread` — the tokens of a text with blanks between them
* `Attribute.Value.Writable.reads` — the tokens of a value are read as the value
* `Attribute.parse?_render` — an attribute reads back
-/

namespace Sieve.Schema.Attribute

open Sieve.Text

/-! ### Rendering -/

/-- The inside of a string literal that spells the text: a backslash stands in front of each
backslash and each quote. -/
def backslashed (cs : List Char) : List Char :=
  cs.flatMap fun c => if c = '\\' ∨ c = '"' then ['\\', c] else [c]

/-- A string or a number as it is written; no other value is a single literal. -/
def Value.literalText : Value → List Char
  | string s => '"' :: (backslashed s.toList ++ ['"'])
  | int i => (toString i).toList
  | float x => (Decimal.Layout.plain.write x).toList
  | _ => []

/-- A token as it is written. -/
def Token.text : Token → List Char
  | word name => name.toList
  | literal v => v.literalText
  | openParen => ['(']
  | closeParen => [')']
  | openBracket => ['[']
  | closeBracket => [']']
  | comma => [',']
  | colon => [':']

/-- Items with commas between them, up to the closing bracket. -/
def separated (items : List (List Token)) (close : Token) : List Token :=
  [.comma].intercalate items ++ [close]

mutual

/-- The tokens of a value. -/
def Value.tokens : Value → List Token
  | .word name => [.word name]
  | .bool b => [.word (toString b)]
  | .call name args => .word name :: .openParen :: separated (tokensOfEach args) .closeParen
  | .list items => .openBracket :: separated (tokensOfEach items) .closeBracket
  | v => [.literal v]

/-- The tokens of each of some values. -/
def Value.tokensOfEach : List Value → List (List Token)
  | [] => []
  | v :: vs => v.tokens :: tokensOfEach vs

end

/-- The tokens of an argument, with its label in front. -/
def Arg.tokens (arg : Arg) : List Token :=
  match arg.label with
  | some name => .word name :: .colon :: arg.value.tokens
  | none => arg.value.tokens

/-- Tokens as text, each with a gap in front of it. -/
def spread (gaps : Nat → List Char) : List Token → List Char
  | [] => []
  | t :: ts => gaps 0 ++ (t.text ++ spread (fun i => gaps (i + 1)) ts)

/-- An attribute as text, with a gap in front of each token inside of the parentheses. -/
def render (a : Attribute) (gaps : Nat → List Char) : String :=
  "@" ++ a.name ++ "(" ++
    String.ofList (spread gaps (separated (a.args.map Arg.tokens) .closeParen))

/-- The value can be read back: whole numbers are in the 64-bit range, and names are identifiers
other than the truth values. -/
inductive Value.Writable : Value → Prop where
  | string (s : String) : Writable (.string s)
  | int {i : Int} : Decimal.fits i = true → Writable (.int i)
  | bool (b : Bool) : Writable (.bool b)
  | word {name : String} : isIdent name.toList = true → isTruthWord name = false →
      Writable (.word name)
  | call {name : String} {args : List Value} : isIdent name.toList = true →
      isTruthWord name = false → (∀ v ∈ args, Writable v) → Writable (.call name args)
  | list {items : List Value} : (∀ v ∈ items, Writable v) → Writable (.list items)

/-- The attribute can be read back: its name is made of identifiers with dots between them, its
labels are identifiers, and its values can be read back. -/
structure Writable (a : Attribute) : Prop where
  name : ∃ parts : List String, parts ≠ [] ∧ (∀ part ∈ parts, isIdent part.toList = true) ∧
    a.name = ".".intercalate parts
  labels : ∀ arg ∈ a.args, ∀ label ∈ arg.label, isIdent label.toList = true
  values : ∀ arg ∈ a.args, arg.value.Writable

theorem Value.tokensOfEach_eq_map (vs : List Value) :
    tokensOfEach vs = (vs.map (Arg.mk none)).map Arg.tokens := by
  induction vs with
  | nil => rfl
  | cons v vs ih =>
    rw [tokensOfEach, ih]
    rfl

/-! ### Names -/

section

variable {c : Char} {cs : List Char}

theorem more_cons (h : isIdentRest c = true) :
    dottedName?.more (c :: cs) = (c :: (dottedName?.more cs).1, (dottedName?.more cs).2) := by
  cases cs with
  | nil => simp [dottedName?.more, h]
  | cons d ds => rw [dottedName?.more, h, Bool.true_or, if_pos rfl]

theorem more_dot (h : isIdentStart c = true) : dottedName?.more ('.' :: c :: cs) =
    ('.' :: (dottedName?.more (c :: cs)).1, (dottedName?.more (c :: cs)).2) := by
  rw [dottedName?.more, h, if_pos (by decide)]

theorem more_of_endsToken (h : EndsToken cs) : dottedName?.more cs = ([], cs) := by
  match cs with
  | [] => rfl
  | [c] => rw [dottedName?.more, (h c rfl).1]; rfl
  | c :: d :: cs =>
    obtain ⟨hident, hdot⟩ := h c rfl
    rw [dottedName?.more, hident, if_neg (by simp [hdot])]

theorem more_append_of_isIdentRest (h : ∀ d ∈ cs, isIdentRest d = true) (rest : List Char) :
    dottedName?.more (cs ++ rest) =
      (cs ++ (dottedName?.more rest).1, (dottedName?.more rest).2) := by
  induction cs with
  | nil => rfl
  | cons d ds ih =>
    obtain ⟨hd, hds⟩ := List.forall_mem_cons.1 h
    rw [List.cons_append, more_cons hd, ih hds, List.cons_append]

theorem dottedName?_isIdent {part behind : List Char} (h : isIdent part = true)
    (hend : EndsToken behind) : dottedName? (part ++ behind) = some (part, behind) := by
  obtain ⟨c, rest, rfl, hc, hrest⟩ := exists_head_of_isIdent h
  rw [List.cons_append, dottedName?, if_pos hc, more_append_of_isIdentRest hrest,
    more_of_endsToken hend, List.append_nil]

/-- An identifier and a dot in front of a name make a longer one. -/
theorem dottedName?_dot {part name behind : List Char} (h : isIdent part = true)
    (hname : dottedName? (name ++ behind) = some (name, behind)) :
    dottedName? (part ++ '.' :: (name ++ behind)) = some (part ++ '.' :: name, behind) := by
  obtain ⟨c, rest, rfl, hc, hrest⟩ := exists_head_of_isIdent h
  obtain ⟨d, ds, rfl, hd, -⟩ := exists_head_of_dottedName? hname
  rw [List.cons_append, dottedName?, if_pos hd, Option.some.injEq, Prod.mk.injEq] at hname
  have hmore : dottedName?.more (d :: (ds ++ behind)) = (d :: ds, behind) := by
    rw [more_cons (isIdentRest_of_isIdentStart hd), hname.1, hname.2]
  rw [List.cons_append, List.cons_append, dottedName?, if_pos hc,
    more_append_of_isIdentRest hrest, more_dot hd, hmore]
  rfl

end

/-- **Identifiers with dots between them are read as one name.** -/
theorem dottedName?_intercalate {parts : List (List Char)} (hne : parts ≠ [])
    (h : ∀ part ∈ parts, isIdent part = true) {behind : List Char} (hend : EndsToken behind) :
    dottedName? (['.'].intercalate parts ++ behind) = some (['.'].intercalate parts, behind) := by
  induction parts with
  | nil => exact absurd rfl hne
  | cons part parts ih =>
    obtain ⟨hpart, hparts⟩ := List.forall_mem_cons.1 h
    cases parts with
    | nil =>
      rw [List.intercalate_singleton]
      exact dottedName?_isIdent hpart hend
    | cons next parts =>
      have hname := dottedName?_dot hpart (ih (List.cons_ne_nil _ _) hparts)
      simpa [List.intercalate_cons_cons] using hname

/-! ### Tokens -/

theorem spelled_text_string (s : String) :
    (Token.literal (.string s)).Spelled (Token.literal (.string s)).text := by
  have hescapes : ∀ c : Char, Escapes c (if c = '\\' ∨ c = '"' then ['\\', c] else [c]) := by
    intro c
    split
    · next hc => exact .escaped (by rcases hc with rfl | rfl <;> rfl)
    · next hc =>
      rw [not_or] at hc
      exact .plain hc.2 hc.1
  have h := Token.Spelled.string (inside_flatMap hescapes s.toList)
  rwa [unescape_flatMap hescapes, String.ofList_toList] at h

theorem spelled_text_int {i : Int} (h : Decimal.fits i = true) :
    (Token.literal (.int i)).Spelled (Token.literal (.int i)).text := by
  have hnumber := Token.Spelled.number (Decimal.Numeral.ofInt i)
  rwa [← Decimal.Numeral.toList_toString, numberValue, Decimal.int?_toString h] at hnumber

theorem spelled_text_word {name : String} (h : isIdent name.toList = true) :
    (Token.word name).Spelled (Token.word name).text := by
  have hword := Token.Spelled.word h
  rwa [String.ofList_toList] at hword

theorem spelled_text_of_isMark {t : Token} (h : t.isMark = true) : t.Spelled t.text := by
  cases t with
  | word name => cases h
  | literal v => cases h
  | openParen => exact .openParen
  | closeParen => exact .closeParen
  | openBracket => exact .openBracket
  | closeBracket => exact .closeBracket
  | comma => exact .comma
  | colon => exact .colon

/-- The tokens can be told apart when they are written one behind the other: each reads back by
itself, and of two neighbours one is a mark. -/
inductive Legible : List Token → Prop where
  | nil : Legible []
  | cons {t : Token} {ts : List Token} : t.Spelled t.text →
      (t.isMark = false → ∀ u ∈ ts.head?, u.isMark = true) → Legible ts → Legible (t :: ts)

theorem Legible.singleton {t : Token} (h : t.Spelled t.text) : Legible [t] :=
  .cons h (by simp) .nil

/-- A mark between two texts keeps them apart. -/
theorem Legible.append_mark {xs ys : List Token} (hxs : Legible xs) {mark : Token}
    (hmark : mark.isMark = true) (hys : Legible ys) : Legible (xs ++ mark :: ys) := by
  induction hxs with
  | nil => exact .cons (spelled_text_of_isMark hmark) (by simp [hmark]) hys
  | @cons t ts ht hnext _ ih =>
    refine .cons ht (fun h u hu => ?_) ih
    cases ts with
    | nil =>
      obtain rfl : mark = u := by simpa using hu
      exact hmark
    | cons v ts => exact hnext h u hu

theorem legible_separated {items : List (List Token)} (h : ∀ ts ∈ items, Legible ts)
    {close : Token} (hclose : close.isMark = true) : Legible (separated items close) := by
  rw [separated]
  induction items with
  | nil => exact Legible.nil.append_mark hclose .nil
  | cons ts items ih =>
    obtain ⟨hts, hitems⟩ := List.forall_mem_cons.1 h
    cases items with
    | nil =>
      rw [List.intercalate_singleton]
      exact hts.append_mark hclose .nil
    | cons us items =>
      rw [List.intercalate_cons_cons, List.append_assoc, List.append_assoc, List.singleton_append]
      exact hts.append_mark rfl (ih hitems)

theorem Value.Writable.legible {v : Value} (h : v.Writable) : Legible v.tokens := by
  have hitems : ∀ {vs : List Value}, (∀ v ∈ vs, Legible v.tokens) →
      ∀ ts ∈ tokensOfEach vs, Legible ts := by
    intro vs hvs
    rw [tokensOfEach_eq_map, List.map_map]
    exact List.forall_mem_map.2 hvs
  induction h with
  | string s => exact .singleton (spelled_text_string s)
  | int h => exact .singleton (spelled_text_int h)
  | bool b => exact .singleton (spelled_text_word (by cases b <;> decide))
  | word h _ => exact .singleton (spelled_text_word h)
  | call h _ _ ih =>
    exact (Legible.singleton (spelled_text_word h)).append_mark rfl
      (legible_separated (hitems ih) rfl)
  | list _ ih => exact Legible.nil.append_mark rfl (legible_separated (hitems ih) rfl)

theorem Writable.legible {a : Attribute} (h : a.Writable) :
    Legible (separated (a.args.map Arg.tokens) .closeParen) := by
  refine legible_separated (List.forall_mem_map.2 fun arg harg => ?_) rfl
  have hvalue := (h.values arg harg).legible
  rw [Arg.tokens]
  split
  · next label hlabel =>
    have hident := h.labels arg harg label hlabel
    exact (Legible.singleton (spelled_text_word hident)).append_mark rfl hvalue
  · exact hvalue

theorem isIdentRest_of_isGap {c : Char} (h : isGap c = true) : isIdentRest c = false := by
  refine Bool.eq_false_iff.2 fun hident => ?_
  rw [isGap_of_isIdentRest hident] at h
  cases h

theorem endsToken_cons {c : Char} (hident : isIdentRest c = false) (hdot : c ≠ '.')
    (rest : List Char) : EndsToken (c :: rest) := by
  rintro d ⟨⟩
  exact ⟨hident, hdot⟩

theorem endsToken_gap_append {gap rest : List Char} (hgap : ∀ c ∈ gap, isGap c = true)
    (hrest : EndsToken rest) : EndsToken (gap ++ rest) := by
  cases gap with
  | nil => exact hrest
  | cons c gap =>
    have hc := hgap c List.mem_cons_self
    refine endsToken_cons (isIdentRest_of_isGap hc) ?_ _
    rintro rfl
    exact absurd hc (by decide)

theorem endsToken_text_append {t : Token} (h : t.isMark = true) (rest : List Char) :
    EndsToken (t.text ++ rest) := by
  cases t with
  | word name => cases h
  | literal v => cases h
  | _ => exact endsToken_cons (by decide) (by decide) rest

/-- **Tokens are read back, whatever the gaps between them.** -/
theorem tokens?_spread {ts : List Token} (h : Legible ts) {gaps : Nat → List Char}
    (hgaps : ∀ i, ∀ c ∈ gaps i, isGap c = true) : tokens? (spread gaps ts) = some ts := by
  induction h generalizing gaps with
  | nil => rw [spread, tokens?]
  | @cons t ts ht hnext _ ih =>
    have hend : t.isMark = false → EndsToken (spread (fun i => gaps (i + 1)) ts) := by
      intro hmark
      cases ts with
      | nil => simp [spread, EndsToken]
      | cons u ts =>
        exact endsToken_gap_append (hgaps _) (endsToken_text_append (hnext hmark u rfl) _)
    rw [spread, tokens?_append_of_isGap (hgaps 0), tokens?_append_of_spelled ht hend,
      ih fun i => hgaps (i + 1)]
    rfl

/-! ### The machine -/

/-- Wherever an item may begin, the tokens are read as the value: the token behind them finds the
value in the innermost bracket. A parenthesis or a colon could make more of a word. -/
def Reads (ts : List Token) (v : Value) : Prop :=
  ∀ {outer : List (Frame × Option String)} {frame : Frame} {place : Place} {label : Option String}
    {t : Token} (rest : List Token), place.Awaits label → t ≠ .openParen → t ≠ .colon →
    (ts ++ t :: rest).foldlM State.step (.inside outer frame place) =
      (afterItem outer (frame.add label v) t).bind (rest.foldlM State.step)

/-- The bracket with some items added. -/
def Frame.addAll (frame : Frame) (args : List Arg) : Frame :=
  match frame with
  | arguments done => arguments (done ++ args)
  | call name done => call name (done ++ args.map Arg.value)
  | list done => list (done ++ args.map Arg.value)

section

variable {outer : List (Frame × Option String)} {frame : Frame} {place : Place}
  {label : Option String} {t : Token} {s : State}

theorem Frame.addAll_nil (frame : Frame) : frame.addAll [] = frame := by
  cases frame <;> simp [addAll]

theorem Frame.addAll_cons (frame : Frame) (arg : Arg) (args : List Arg) :
    frame.addAll (arg :: args) = (frame.add arg.label arg.value).addAll args := by
  cases frame <;> simp [addAll, add]

theorem Frame.closedBy_add (frame : Frame) (label : Option String) (v : Value) (t : Token) :
    (frame.add label v).closedBy t = frame.closedBy t := by
  cases frame <;> cases t <;> rfl

/-- A bracket may be closed where an item without label may begin. -/
theorem step_of_closedBy (h : place.Awaits none) (hclose : frame.closedBy t = true) :
    State.step (.inside outer frame place) t = closeFrame outer frame := by
  cases h <;> exact if_pos hclose

theorem foldlM_of_step {s' : State} (h : s.step t = some s') (rest : List Token) :
    (t :: rest).foldlM State.step s = rest.foldlM State.step s' := by
  rw [List.foldlM_cons, h]
  rfl

theorem reads_literal (v : Value) : Reads [.literal v] v := by
  intro outer frame place label t rest hplace _ _
  rw [List.singleton_append, foldlM_of_step (step_of_awaits hplace rfl), List.foldlM_cons]
  rfl

theorem reads_word (name : String) : Reads [.word name] (wordValue name) := by
  intro outer frame place label t rest hplace hparen hcolon
  have hstep : State.step (.inside outer frame (.word label name)) t =
      afterItem outer (frame.add label (wordValue name)) t := by
    cases t with
    | openParen => exact absurd rfl hparen
    | colon => exact absurd rfl hcolon
    | _ => rfl
  rw [List.singleton_append, foldlM_of_step (step_of_awaits hplace rfl), List.foldlM_cons, hstep]
  rfl

/-- An argument is read where none has begun, with its label if the bracket allows for labels. -/
theorem foldlM_arg {arg : Arg} (h : Reads arg.value.tokens arg.value)
    (hlabel : arg.label.isSome = true → frame.allowsLabels = true) (hplace : place.Awaits none)
    (hparen : t ≠ .openParen) (hcolon : t ≠ .colon) (rest : List Token) :
    (arg.tokens ++ t :: rest).foldlM State.step (.inside outer frame place) =
      (afterItem outer (frame.add arg.label arg.value) t).bind (rest.foldlM State.step) := by
  obtain ⟨label, v⟩ := arg
  cases label with
  | none => exact h rest hplace hparen hcolon
  | some name =>
    rw [Arg.tokens, List.cons_append, List.cons_append,
      foldlM_of_step (step_of_awaits hplace rfl), foldlM_of_step (Move.label (hlabel rfl)).step]
    exact h rest (.labelled name) hparen hcolon

/-- **Items are read up to the closing bracket**, and all of them are in it. -/
theorem foldlM_separated {args : List Arg} {close : Token}
    (h : ∀ arg ∈ args, Reads arg.value.tokens arg.value)
    (hlabels : ∀ arg ∈ args, arg.label.isSome = true → frame.allowsLabels = true)
    (hplace : place.Awaits none) (hclose : frame.closedBy close = true) (rest : List Token) :
    (separated (args.map Arg.tokens) close ++ rest).foldlM State.step (.inside outer frame place) =
      (closeFrame outer (frame.addAll args)).bind (rest.foldlM State.step) := by
  have hparen : close ≠ .openParen := by
    rintro rfl
    cases frame <;> cases hclose
  have hcolon : close ≠ .colon := by
    rintro rfl
    cases frame <;> cases hclose
  rw [separated, List.append_assoc]
  induction args generalizing frame place with
  | nil =>
    rw [List.map_nil, List.intercalate_nil, List.nil_append, List.singleton_append,
      List.foldlM_cons, step_of_closedBy hplace hclose, Frame.addAll_nil]
    rfl
  | cons arg args ih =>
    obtain ⟨harg, hargs⟩ := List.forall_mem_cons.1 h
    obtain ⟨hlabel, hlabels⟩ := List.forall_mem_cons.1 hlabels
    rw [Frame.addAll_cons]
    cases args with
    | nil =>
      have hafter : afterItem outer (frame.add arg.label arg.value) close =
          closeFrame outer (frame.add arg.label arg.value) :=
        if_pos ((frame.closedBy_add _ _ _).trans hclose)
      rw [List.map_singleton, List.intercalate_singleton, List.singleton_append,
        foldlM_arg harg hlabel hplace hparen hcolon, hafter, Frame.addAll_nil]
    | cons next args =>
      have hafter : afterItem outer (frame.add arg.label arg.value) .comma =
          some (.inside outer (frame.add arg.label arg.value) .next) := by
        cases frame <;> rfl
      have hallows : (frame.add arg.label arg.value).allowsLabels = frame.allowsLabels := by
        cases frame <;> rfl
      rw [List.map_cons, List.map_cons, List.intercalate_cons_cons, List.append_assoc,
        List.append_assoc, List.singleton_append,
        foldlM_arg harg hlabel hplace (by simp) (by simp), hafter]
      refine ih hargs ?_ .next ((frame.closedBy_add _ _ _).trans hclose)
      rwa [hallows]

/-- Values are items without labels, in a call or in a list. -/
theorem foldlM_separated_tokensOfEach {vs : List Value} {close : Token}
    (h : ∀ v ∈ vs, Reads v.tokens v) (hclose : frame.closedBy close = true) (rest : List Token) :
    (separated (Value.tokensOfEach vs) close ++ rest).foldlM State.step
        (.inside outer frame .first) =
      (closeFrame outer (frame.addAll (vs.map (Arg.mk none)))).bind
        (rest.foldlM State.step) := by
  rw [Value.tokensOfEach_eq_map]
  refine foldlM_separated (List.forall_mem_map.2 h) ?_ .first hclose rest
  exact List.forall_mem_map.2 fun v _ hlabel => nomatch hlabel

end

/-- **The tokens of a value are read as the value.** -/
theorem Value.Writable.reads {v : Value} (h : v.Writable) : Reads v.tokens v := by
  induction h with
  | string s => exact reads_literal _
  | int h => exact reads_literal _
  | bool b => cases b with
    | true => exact reads_word "true"
    | false => exact reads_word "false"
  | @word name h htruth =>
    have hvalue : wordValue name = .word name := by
      rw [isTruthWord, Bool.or_eq_false_iff, beq_eq_false_iff_ne, beq_eq_false_iff_ne] at htruth
      rw [wordValue, if_neg htruth.1, if_neg htruth.2]
    have hreads : Reads [.word name] (wordValue name) := reads_word name
    rwa [hvalue] at hreads
  | @call name args h htruth _ ih =>
    intro outer frame place label t rest hplace _ _
    rw [Value.tokens, List.cons_append, List.cons_append,
      foldlM_of_step (step_of_awaits hplace rfl), foldlM_of_step (Move.call htruth).step,
      foldlM_separated_tokensOfEach ih rfl]
    simp [Frame.addAll, closeFrame, State.step, List.foldlM_cons, Function.comp_def]
  | @list items _ ih =>
    intro outer frame place label t rest hplace _ _
    rw [Value.tokens, List.cons_append, foldlM_of_step (step_of_awaits hplace rfl),
      foldlM_separated_tokensOfEach ih rfl]
    simp [Frame.addAll, closeFrame, State.step, List.foldlM_cons, Function.comp_def]

/-- The tokens of an attribute's arguments are read as the arguments. -/
theorem Writable.arguments? {a : Attribute} (h : a.Writable) :
    arguments? (.openParen :: separated (a.args.map Arg.tokens) .closeParen) = some a.args := by
  have hargs : ∀ arg ∈ a.args, Reads arg.value.tokens arg.value :=
    fun arg harg => (h.values arg harg).reads
  have hrun : (separated (a.args.map Arg.tokens) .closeParen ++ []).foldlM State.step
      (.inside [] (.arguments []) .first) = some (.finished a.args) :=
    foldlM_separated hargs (fun _ _ _ => rfl) .first rfl []
  rw [List.append_nil] at hrun
  rw [Attribute.arguments?, hrun]
  rfl

/-- **An attribute reads back**, whatever its gaps, and with a second `@` in front of it too. -/
theorem parse?_render {a : Attribute} (h : a.Writable) {gaps : Nat → List Char}
    (hgaps : ∀ i, ∀ c ∈ gaps i, isGap c = true) :
    parse? (a.render gaps) = some a ∧ parse? ("@" ++ a.render gaps) = some a := by
  let behind := '(' :: spread gaps (separated (a.args.map Arg.tokens) .closeParen)
  have hname : dottedName? (a.name.toList ++ behind) = some (a.name.toList, behind) := by
    obtain ⟨parts, hne, hparts, hname⟩ := h.name
    rw [hname, String.toList_intercalate]
    exact dottedName?_intercalate (by simpa using hne) (List.forall_mem_map.2 hparts)
      (endsToken_cons (by decide) (by decide) _)
  have htokens : tokens? behind =
      some (.openParen :: separated (a.args.map Arg.tokens) .closeParen) := by
    rw [tokens?_openParen, tokens?_spread h.legible hgaps]
    rfl
  have htext : a.render gaps = String.ofList ('@' :: (a.name.toList ++ behind)) := by
    rw [← String.toList_inj]
    simp [render, behind]
  have htwo : "@" ++ a.render gaps = String.ofList ('@' :: '@' :: (a.name.toList ++ behind)) := by
    rw [← String.toList_inj]
    simp [htext]
  have hread : ((tokens? behind).bind Attribute.arguments?).map
      (⟨String.ofList a.name.toList, ·⟩) = some a := by
    rw [htokens, Option.bind_some, h.arguments?, String.ofList_toList]
    rfl
  rw [htwo, htext, (parse?_name hname).1, (parse?_name hname).2]
  exact ⟨hread, hread⟩

/-- Names, strings, lists and calls, nested and labelled. -/
theorem parse?_render_nested :
    let a : Attribute := ⟨"db.check", [⟨some "of", .list [.call "f" [.string "a\"\\", .bool true]]⟩,
      ⟨none, .int (-7)⟩, ⟨none, .word "Cascade"⟩]⟩
    let gaps : Nat → List Char := fun i => if i % 2 = 0 then ['\n', '\t'] else []
    a.Writable ∧ (∀ i, ∀ c ∈ gaps i, isGap c = true) ∧
      parse? (a.render gaps) = some a ∧ parse? ("@" ++ a.render gaps) = some a := by
  intro a gaps
  have hcall : (Value.call "f" [.string "a\"\\", .bool true]).Writable :=
    .call (by decide) (by decide)
      (List.forall_mem_cons.2 ⟨.string _, List.forall_mem_singleton.2 (.bool true)⟩)
  have hvalues : ∀ arg ∈ a.args, arg.value.Writable :=
    List.forall_mem_cons.2 ⟨.list (List.forall_mem_singleton.2 hcall), List.forall_mem_cons.2
      ⟨.int (by decide), List.forall_mem_singleton.2 (.word (by decide) (by decide))⟩⟩
  have ha : a.Writable :=
    ⟨⟨["db", "check"], by decide, by decide, by decide⟩, by decide, hvalues⟩
  have hgaps : ∀ i, ∀ c ∈ gaps i, isGap c = true := by
    intro i c hc
    simp only [gaps] at hc
    split at hc
    · simp only [List.mem_cons, List.not_mem_nil, or_false] at hc
      rcases hc with rfl | rfl <;> decide
    · cases hc
  exact ⟨ha, hgaps, parse?_render ha hgaps⟩

example : render ⟨"map", [⟨some "to", .list [.string "a\"\\", .call "now" []]⟩, ⟨none, .int (-7)⟩]⟩
    (fun _ => [' ']) = "@map( to : [ \"a\\\"\\\\\" , now ( ) ] , -7 )" := by
  cbv

end Sieve.Schema.Attribute
