import Sieve.Proofs.Schema.Words
import Sieve.Schema.Document

/-!
# Reading without places

Words, tokens and declarations carry their places along, but nothing that is read off them depends
on a place, except the places of fields, models and enums themselves. So a document can be read off
the bare words of its text, with all places at zero, and only the bare words matter.

## Main definitions

* `Document.unplaced` — a document with all its places at zero, and so on for its parts
* `bareTokens` — the tokens of a text without their places

## Main results

* `bareTokens_word`, `bareTokens_space`, `bareTokens_newline` — the bare tokens of a text, piece by
  piece
* `Model.unplaced_ofBlock`, `Enum.unplaced_ofBlock` — reading a block is reading its bare tokens
-/

namespace Sieve.Schema

open Sieve.Text

/-- The place that stands for no place. -/
def Span.zero : Span := ⟨0, 0⟩

/-- The word without its place. -/
def Word.unplaced (w : Word) : Word := ⟨w.text, .zero⟩

/-- The token without its place. -/
def Token.unplaced : Token → Token
  | word w => word w.unplaced
  | newline _ => newline .zero

/-- The declaration without its places. -/
def Declaration.unplaced : Declaration → Declaration
  | field words => field (words.map Word.unplaced)
  | directive w => directive w.unplaced

/-- The field without its place. -/
def Field.unplaced (f : Field) : Field := { f with span := .zero }

/-- The model without its place and those of its fields. -/
def Model.unplaced (m : Model) : Model :=
  { m with fields := m.fields.map Field.unplaced, span := .zero }

/-- The enum without its place. -/
def Enum.unplaced (e : Enum) : Enum := { e with span := .zero }

/-- The document without its places. -/
def Document.unplaced (d : Document) : Document :=
  ⟨d.models.map Model.unplaced, d.enums.map Enum.unplaced⟩

theorem Word.startsIdent_unplaced (w : Word) : w.unplaced.startsIdent = w.startsIdent := rfl

/-! ### Bare tokens -/

/-- Where a text begins changes nothing but places. -/
theorem map_unplaced_tokensFrom (pos pos' : Nat) (cs : List Char) :
    (tokensFrom pos cs).map Token.unplaced = (tokensFrom pos' cs).map Token.unplaced := by
  induction pos, cs using tokensFrom.induct generalizing pos' with
  | case1 pos => rw [tokensFrom, tokensFrom]
  | case2 pos cs ih =>
    rw [tokensFrom, tokensFrom, if_pos rfl, if_pos rfl, List.map_cons, List.map_cons, ih]
    rfl
  | case3 pos c cs hnl hspace ih =>
    rw [tokensFrom, tokensFrom, if_neg hnl, if_neg hnl, if_pos hspace, if_pos hspace]
    exact ih _
  | case4 pos c cs hnl hspace hcomment ih =>
    rw [tokensFrom, tokensFrom, if_neg hnl, if_neg hnl, if_neg hspace, if_neg hspace,
      if_pos hcomment, if_pos hcomment]
    exact ih _
  | case5 pos c cs hnl hspace hcomment p stop ih =>
    rw [tokensFrom, tokensFrom, if_neg hnl, if_neg hnl, if_neg hspace, if_neg hspace,
      if_neg hcomment, if_neg hcomment]
    simp only [List.map_cons]
    exact congrArg (List.cons (Token.word ⟨c :: p.1, .zero⟩)) (ih _)

/-- The tokens of a text without their places. -/
def bareTokens (cs : List Char) : List Token := (tokensFrom 0 cs).map Token.unplaced

@[simp] theorem bareTokens_nil : bareTokens [] = [] := by
  rw [bareTokens, tokensFrom]
  rfl

theorem bareTokens_newline (cs : List Char) :
    bareTokens ('\n' :: cs) = .newline .zero :: bareTokens cs := by
  rw [bareTokens, tokensFrom, if_pos rfl, List.map_cons, map_unplaced_tokensFrom _ 0]
  rfl

theorem bareTokens_space (cs : List Char) : bareTokens (' ' :: cs) = bareTokens cs := by
  rw [bareTokens, tokensFrom, if_neg (by decide), if_pos (by decide), map_unplaced_tokensFrom _ 0]
  rfl

/-- **A text that is walked over is one word**, if a blank stands behind it. -/
theorem bareTokens_word {w : List Char} (hwalk : walk .code 0 w = some (.code, 0)) (hne : w ≠ [])
    {c : Char} (hc : isAsciiSpace c = true) (cs : List Char) :
    bareTokens (w ++ c :: cs) = .word ⟨w, .zero⟩ :: bareTokens (c :: cs) := by
  obtain ⟨d, ds, rfl⟩ := List.exists_cons_of_ne_nil hne
  rw [walk] at hwalk
  split at hwalk
  · cases hwalk
  · next halert =>
    rw [if_pos rfl] at hwalk
    simp only [alerts, beq_self_eq_true, Bool.true_and, Bool.not_eq_true, Bool.or_eq_false_iff,
      beq_eq_false_iff_ne] at halert
    obtain ⟨⟨-, hslash⟩, hspace⟩ := halert
    have hnl : d ≠ '\n' := by
      rintro rfl
      cases hspace
    have hcomment : startsComment d (ds ++ c :: cs) = false := by simp [startsComment, hslash]
    have hspan : wordSpan (Mode.code.afterWord d) (groupDepth 0 d) (ds ++ c :: cs) =
        (ds, c :: cs) := by
      rw [wordSpan_of_walk hwalk, wordSpan_of_isAsciiSpace hc, List.append_nil]
    rw [bareTokens, List.cons_append, tokensFrom, if_neg hnl, hspace, if_neg Bool.false_ne_true,
      hcomment, if_neg Bool.false_ne_true, hspan, List.map_cons, map_unplaced_tokensFrom _ 0]
    rfl

/-! ### Declarations -/

theorem map_unplaced_fieldOf (ws : List Word) :
    (fieldOf ws).map Declaration.unplaced = fieldOf (ws.map Word.unplaced) := by
  cases ws <;> rfl

/-- Grouping does not look at places. -/
theorem map_unplaced_group (current : List Word) (ts : List Token) :
    (group current ts).map Declaration.unplaced =
      group (current.map Word.unplaced) (ts.map Token.unplaced) := by
  induction ts generalizing current with
  | nil => exact map_unplaced_fieldOf current
  | cons t ts ih =>
    cases t with
    | newline span =>
      rw [group, List.map_append, ih, map_unplaced_fieldOf]
      rfl
    | word w =>
      rw [List.map_cons, Token.unplaced, group, group, List.length_map]
      show List.map _ (if w.isBrace then _ else if w.isDirective then _
        else if 2 ≤ current.length && w.startsIdent then _ else _) =
        if w.isBrace then _ else if w.isDirective then _
        else if 2 ≤ current.length && w.startsIdent then _ else _
      split
      · exact ih current
      · split
        · rw [List.map_append, List.map_cons, ih, map_unplaced_fieldOf]
          rfl
        · split
          · rw [List.map_append, ih, map_unplaced_fieldOf]
            rfl
          · rw [ih, List.map_append]
            rfl

namespace Field

/-- What a declaration spells does not depend on where its words stand, but for its own place. -/
theorem unplaced_ofWords? (names : Names) (bodyStart : Nat) (ws : List Word) :
    (ofWords? names bodyStart ws).map unplaced =
      (ofWords? names 0 (ws.map Word.unplaced)).map unplaced := by
  cases ws with
  | nil => rfl
  | cons name ws =>
    cases ws with
    | nil => rfl
    | cons type rest =>
      have hmarks : (rest.map Word.unplaced).filterMap Word.marks? =
          rest.filterMap Word.marks? := by
        rw [List.filterMap_map]
        rfl
      have hwords : ((rest.map Word.unplaced).filter Word.isAttribute).map
          (fun w => String.ofList w.text) =
          (rest.filter Word.isAttribute).map fun w => String.ofList w.text := by
        rw [List.filter_map, List.map_map]
        rfl
      have hquestion : ((name :: type :: rest).map Word.unplaced).any
          (fun w => w.text.contains '?') =
          (name :: type :: rest).any fun w => w.text.contains '?' := by
        rw [List.any_map]
        rfl
      rw [List.map_cons, List.map_cons] at hquestion ⊢
      rw [ofWords?, ofWords?, Word.startsIdent_unplaced]
      split
      · rw [Option.map_some, Option.map_some, hmarks, hwords, hquestion]
        rfl
      · rfl

end Field

namespace Model

theorem unplaced_fieldOf? (names : Names) (bodyStart : Nat) (d : Declaration) :
    (fieldOf? names bodyStart d).map Field.unplaced =
      (fieldOf? names 0 d.unplaced).map Field.unplaced := by
  cases d with
  | field ws => exact Field.unplaced_ofWords? names bodyStart ws
  | directive w => rfl

theorem mapNameOf?_unplaced (d : Declaration) : mapNameOf? d.unplaced = mapNameOf? d := by
  cases d <;> rfl

/-- **Reading a model is reading its bare tokens.** -/
theorem unplaced_ofBlock (names : Names) (b : Block) :
    (ofBlock names b).unplaced =
      ⟨b.name,
        ((group [] (bareTokens b.body.toList)).filterMap (fieldOf? names 0)).map Field.unplaced,
        (group [] (bareTokens b.body.toList)).findSome? mapNameOf?, .zero⟩ := by
  have hgroup : group [] (bareTokens b.body.toList) =
      (declarations b.body).map Declaration.unplaced := (map_unplaced_group [] _).symm
  have hfields : ((declarations b.body).filterMap (fieldOf? names b.bodyStart)).map Field.unplaced =
      (((declarations b.body).map Declaration.unplaced).filterMap (fieldOf? names 0)).map
        Field.unplaced := by
    rw [List.filterMap_map, List.map_filterMap, List.map_filterMap]
    congr 1
    funext d
    exact unplaced_fieldOf? names b.bodyStart d
  have hmap : ((declarations b.body).map Declaration.unplaced).findSome? mapNameOf? =
      (declarations b.body).findSome? mapNameOf? := by
    rw [List.findSome?_map]
    congr 1
    funext d
    exact mapNameOf?_unplaced d
  rw [hgroup, ← hfields, hmap]
  rfl

end Model

namespace Enum

/-- **Reading an enum is reading its bare tokens.** -/
theorem unplaced_ofBlock (b : Block) :
    (ofBlock b).unplaced = ⟨b.name, (bareTokens b.body.toList).filterMap valueOf?, .zero⟩ := by
  have hvalue : ∀ t : Token, valueOf? t.unplaced = valueOf? t := fun t => by cases t <;> rfl
  have hvalues : (bareTokens b.body.toList).filterMap valueOf? =
      (tokens b.body).filterMap valueOf? := by
    rw [bareTokens, List.filterMap_map]
    congr 1
    funext t
    exact hvalue t
  rw [hvalues]
  rfl

end Enum

end Sieve.Schema
