import Mathlib.Tactic.SplitIfs
import Sieve.Schema.Attribute.Reader

/-!
# What a token does

Every step of the machine that reads attributes, said once: inside of a bracket a token begins an
item, closes the bracket, or is a comma; and right behind a word, which may not be an item of its
own yet, a parenthesis makes it a call and a colon a label.

## Main definitions

* `Attribute.Place.Awaits` — an item may begin at a place, with a label
* `Attribute.Place.Ends` — the bracket may be closed at a place
* `Attribute.Move` — what a token does inside of a bracket

## Main results

* `Attribute.step_eq_some_iff` — the machine takes exactly these steps
-/

namespace Sieve.Schema.Attribute

/-- An item may begin at the place, with the given label. -/
inductive Place.Awaits : Place → Option String → Prop where
  | first : Awaits .first none
  | next : Awaits .next none
  | labelled (label : String) : Awaits (.labelled label) (some label)

/-- The bracket may be closed at the place. -/
inductive Place.Ends : Place → Prop where
  | first : Ends .first
  | next : Ends .next
  | last : Ends .last
  | after : Ends .after

/-- What a token does inside of the bracket. -/
inductive Move (outer : List (Frame × Option String)) : Frame → Place → Token → State → Prop where
  | begins {frame : Frame} {place : Place} {label : Option String} {t : Token} {s : State} :
      place.Awaits label → beginItem outer frame label t = some s → Move outer frame place t s
  | closes {frame : Frame} {place : Place} {t : Token} {s : State} :
      place.Ends → frame.closedBy t = true → closeFrame outer frame = some s →
      Move outer frame place t s
  /-- A comma behind an item. -/
  | comma {frame : Frame} : Move outer frame .after .comma (.inside outer frame .next)
  /-- A comma behind nothing. -/
  | lastComma {frame : Frame} : Move outer frame .first .comma (.inside outer frame .last)
  | call {frame : Frame} {label : Option String} {name : String} : isTruthWord name = false →
      Move outer frame (.word label name) .openParen
        (.inside ((frame, label) :: outer) (.call name []) .first)
  | label {frame : Frame} {name : String} : frame.allowsLabels = true →
      Move outer frame (.word none name) .colon (.inside outer frame (.labelled name))
  /-- The word was an item of its own. -/
  | word {frame : Frame} {label : Option String} {name : String} {t : Token} {s : State} :
      Move outer (frame.add label (wordValue name)) .after t s →
      Move outer frame (.word label name) t s

variable {outer : List (Frame × Option String)} {frame : Frame} {place : Place}
  {label : Option String} {t : Token} {s : State}

/-- What begins an item neither closes a bracket nor is a comma. -/
theorem step_of_awaits (h : place.Awaits label) (hs : beginItem outer frame label t = some s) :
    State.step (.inside outer frame place) t = some s := by
  have hclosed : frame.closedBy t = false := by
    cases t with
    | closeParen => cases hs
    | closeBracket => cases hs
    | _ => cases frame <;> rfl
  have hcomma : (t == .comma) = false := by
    cases t with
    | comma => cases hs
    | _ => rfl
  cases h with
  | first => simp only [State.step, hclosed, hcomma, Bool.false_eq_true, if_false, hs]
  | next => simp only [State.step, hclosed, Bool.false_eq_true, if_false, hs]
  | labelled name => exact hs

theorem eq_comma_of_beq (h : (t == .comma) = true) : t = .comma := by
  cases t with
  | comma => rfl
  | _ => cases h

theorem move_of_afterItem (h : afterItem outer frame t = some s) : Move outer frame .after t s := by
  rw [afterItem] at h
  split_ifs at h with hclosed hcomma
  · exact .closes .after hclosed h
  · obtain rfl := eq_comma_of_beq hcomma
    cases h
    exact .comma

theorem move_of_afterWord {name : String} (h : afterWord outer frame label name t = some s) :
    Move outer frame (.word label name) t s := by
  rw [afterWord.eq_def] at h
  split at h
  · split_ifs at h with htruth
    cases h
    exact .call (Bool.eq_false_iff.2 htruth)
  · split_ifs at h with hlabel
    rw [Bool.and_eq_true, Option.isNone_iff_eq_none] at hlabel
    obtain ⟨rfl, hallows⟩ := hlabel
    cases h
    exact .label hallows
  · exact .word (move_of_afterItem h)

theorem move_of_step (h : State.step (.inside outer frame place) t = some s) :
    Move outer frame place t s := by
  cases place with
  | first =>
    simp only [State.step] at h
    split_ifs at h with hclosed hcomma
    · exact .closes .first hclosed h
    · obtain rfl := eq_comma_of_beq hcomma
      cases h
      exact .lastComma
    · exact .begins .first h
  | next =>
    simp only [State.step] at h
    split_ifs at h with hclosed
    · exact .closes .next hclosed h
    · exact .begins .next h
  | last =>
    simp only [State.step] at h
    split_ifs at h with hclosed
    exact .closes .last hclosed h
  | after => exact move_of_afterItem h
  | labelled label => exact .begins (.labelled label) h
  | word label name => exact move_of_afterWord h

theorem Move.step (h : Move outer frame place t s) :
    State.step (.inside outer frame place) t = some s := by
  induction h with
  | begins hplace hs => exact step_of_awaits hplace hs
  | closes hplace hclosed hs => cases hplace <;> exact (if_pos hclosed).trans hs
  | @comma frame => cases frame <;> rfl
  | @lastComma frame => cases frame <;> rfl
  | call htruth => exact if_neg (by simp [htruth])
  | label hallows => exact if_pos hallows
  | @word frame label name t s hmove ih =>
    -- neither a parenthesis nor a colon may follow an item
    have hparen : t ≠ .openParen := by
      rintro rfl
      cases frame <;> cases ih
    have hcolon : t ≠ .colon := by
      rintro rfl
      cases frame <;> cases ih
    show afterWord outer frame label name t = some s
    rw [afterWord.eq_3 _ _ _ _ _ hparen hcolon]
    exact ih

/-- **The machine takes exactly these steps** inside of a bracket. -/
theorem step_eq_some_iff :
    State.step (.inside outer frame place) t = some s ↔ Move outer frame place t s :=
  ⟨move_of_step, Move.step⟩

end Sieve.Schema.Attribute
