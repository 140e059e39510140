import Sieve.Schema.Document

/-!
# What declarations are made of

Grouping drops line breaks and lone braces and keeps all other words in their order, so the words of
all declarations are some of the words of the body. A directive is never among the words of a field,
since it ends the declaration in front of it.

## Main definitions

* `Declaration.words` — the words of a declaration
* `Token.word?` — the word that a token is

## Main results

* `sublist_words_group` — the words of the declarations are words of the body, in order
* `mem_tokens_of_mem_words` — so each of them is a token of the body
* `isDirective_of_mem_field` — no word of a field is a directive
* `Field.exists_words_of_ofWords?` — what is read off the words of a field
* `Field.exists_word_of_mem_words` — which words its attributes are
* `Model.exists_words_of_mem_fields` — which words a field of a block is read off
-/

namespace Sieve.Schema

/-- The words of a declaration. -/
def Declaration.words : Declaration → List Word
  | field ws => ws
  | directive w => [w]

/-- The word that a token is; a line break is none. -/
def Token.word? : Token → Option Word
  | word w => some w
  | newline _ => none

theorem flatMap_words_fieldOf (ws : List Word) : (fieldOf ws).flatMap Declaration.words = ws := by
  cases ws with
  | nil => rfl
  | cons w ws => exact List.append_nil _

/-- **The words of the declarations are words of the body, in order**, behind those of the
declaration that was begun. -/
theorem sublist_words_group (current : List Word) (ts : List Token) :
    ((group current ts).flatMap Declaration.words).Sublist
      (current ++ ts.filterMap Token.word?) := by
  induction ts generalizing current with
  | nil =>
    rw [group, flatMap_words_fieldOf]
    exact List.sublist_append_left current _
  | cons t ts ih =>
    cases t with
    | newline s =>
      rw [group, List.flatMap_append, flatMap_words_fieldOf, List.filterMap_cons_none rfl]
      exact (ih []).append_left current
    | word w =>
      have hword : (Token.word w :: ts).filterMap Token.word? = w :: ts.filterMap Token.word? := rfl
      rw [group, hword]
      split
      · exact (ih current).trans ((List.sublist_cons_self w _).append_left current)
      · split
        · rw [List.flatMap_append, flatMap_words_fieldOf, List.flatMap_cons]
          exact ((ih []).append_left [w]).append_left current
        · split
          · rw [List.flatMap_append, flatMap_words_fieldOf]
            exact (ih [w]).append_left current
          · have hcurrent := ih (current ++ [w])
            rwa [List.append_assoc] at hcurrent

/-- A word of a declaration is a token of the body. -/
theorem mem_tokens_of_mem_words {body : String} {d : Declaration} (hd : d ∈ declarations body)
    {w : Word} (hw : w ∈ d.words) : .word w ∈ tokens body := by
  have hmem : w ∈ (tokens body).filterMap Token.word? :=
    (sublist_words_group [] (tokens body)).subset (List.mem_flatMap.2 ⟨d, hd, hw⟩)
  obtain ⟨t, ht, hword⟩ := List.mem_filterMap.1 hmem
  cases t with
  | newline s => cases hword
  | word v =>
    obtain rfl := Option.some.inj hword
    exact ht

theorem eq_of_mem_fieldOf {ws us : List Word} (h : .field ws ∈ fieldOf us) : ws = us := by
  cases us with
  | nil => cases h
  | cons u us => exact Declaration.field.inj (List.mem_singleton.1 h)

/-- **No word of a field is a directive**, if none is in the declaration that was begun. -/
theorem isDirective_of_mem_field {current ws : List Word} {ts : List Token}
    (hcurrent : ∀ w ∈ current, w.isDirective = false) (h : .field ws ∈ group current ts) :
    ∀ w ∈ ws, w.isDirective = false := by
  induction ts generalizing current with
  | nil =>
    obtain rfl := eq_of_mem_fieldOf h
    exact hcurrent
  | cons t ts ih =>
    have hnone : ∀ w ∈ ([] : List Word), w.isDirective = false := nofun
    -- what was begun may end here
    have hbegun : .field ws ∈ fieldOf current → ∀ w ∈ ws, w.isDirective = false := by
      intro hws
      obtain rfl := eq_of_mem_fieldOf hws
      exact hcurrent
    cases t with
    | newline s =>
      rw [group] at h
      exact (List.mem_append.1 h).elim hbegun (ih hnone)
    | word w =>
      rw [group] at h
      split at h
      · exact ih hcurrent h
      · split at h
        · refine (List.mem_append.1 h).elim hbegun fun hrest => ih hnone ?_
          exact (List.mem_cons.1 hrest).resolve_left nofun
        · next hdirective =>
          rw [Bool.not_eq_true] at hdirective
          have hw : ∀ v ∈ [w], v.isDirective = false := List.forall_mem_singleton.2 hdirective
          split at h
          · exact (List.mem_append.1 h).elim hbegun (ih hw)
          · exact ih (fun v hv => (List.mem_append.1 hv).elim (hcurrent v) (hw v)) h

/-- **A field is read off its words**: the first is its name, and those behind the second that are
attributes are kept as they are. It stands from the first word to the last. -/
theorem Field.exists_words_of_ofWords? {names : Names} {bodyStart : Nat} {ws : List Word}
    {f : Field} (h : ofWords? names bodyStart ws = some f) :
    ∃ name type rest, ws = name :: type :: rest ∧ f.name = String.ofList name.text ∧
      f.kind = Kind.resolve names f.type ∧
      f.words = (rest.filter Word.isAttribute).map (fun w => String.ofList w.text) ∧
      f.span = (⟨name.span.start, ((type :: rest).getLast?.getD name).span.stop⟩ : Span).shift
        bodyStart := by
  cases ws with
  | nil => cases h
  | cons name ws =>
    cases ws with
    | nil => cases h
    | cons type rest =>
      rw [ofWords?] at h
      split at h
      · obtain rfl := Option.some.inj h
        exact ⟨name, type, rest, rfl, rfl, rfl, rfl, by rw [List.getLast?_cons, Option.getD_some]⟩
      · cases h

/-- What a field keeps as an attribute is the text of one of its words. -/
theorem Field.exists_word_of_mem_words {names : Names} {bodyStart : Nat} {ws : List Word}
    {f : Field} (h : ofWords? names bodyStart ws = some f) {word : String}
    (hword : word ∈ f.words) :
    ∃ w ∈ ws, w.isAttribute = true ∧ word = String.ofList w.text := by
  obtain ⟨name, type, rest, rfl, -, -, hwords, -⟩ := exists_words_of_ofWords? h
  rw [hwords] at hword
  obtain ⟨w, hw, rfl⟩ := List.mem_map.1 hword
  obtain ⟨hmem, hattribute⟩ := List.mem_filter.1 hw
  exact ⟨w, List.mem_cons_of_mem _ (List.mem_cons_of_mem _ hmem), hattribute, rfl⟩

/-- A field of a block is read off the words of one of its declarations. -/
theorem Model.exists_words_of_mem_fields {names : Names} {b : Block} {f : Field}
    (h : f ∈ (ofBlock names b).fields) :
    ∃ ws, .field ws ∈ declarations b.body ∧ Field.ofWords? names b.bodyStart ws = some f := by
  obtain ⟨d, hd, hf⟩ := List.mem_filterMap.1 h
  cases d with
  | field ws => exact ⟨ws, hd, hf⟩
  | directive w => cases hf

end Sieve.Schema
