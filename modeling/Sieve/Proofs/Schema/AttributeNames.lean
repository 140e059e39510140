import Mathlib
import Sieve.Proofs.Schema.AttributeTokens
import Sieve.Proofs.Schema.Coherence

/-!
# Two readers of attribute names

The name of an attribute is read twice. The raw name is cut out behind all the `@` in front of a
word, up to the first character that no name holds; the grammar takes one `@` or two, passes over
blanks, and reads identifiers joined by dots. Where the grammar accepts a word, the two names are
the same exactly if no blank stands in front of the name. In a word of a body none does, because the
scanner ends a word at a blank outside of brackets. So whatever is found by its raw name and
whatever is found by the name of an attribute is found in the same words.

## Main definitions

* `Field.NamesAgree` — what a field says by raw names fits the attributes that read well
* `Declaration.attribute?` — the attribute that a directive spells

## Main results

* `Attribute.rawName_eq_name_iff` — the texts on which the two readers agree
* `isAsciiSpace_head?_wordSpan` — no blank stands behind the `@` of a word
* `rawName_eq_name_of_mem_tokens` — so the readers agree on the words of a body
* `Field.namesAgree_of_rawName_eq` — what follows for a field
* `Model.namesAgree_ofBlock` — the two readers agree on every word of every body
-/

namespace Sieve.Schema

open Sieve.Text

/-! ### Names in the grammar -/

theorem isNameChar_of_isGap {c : Char} (h : Attribute.isGap c = true) : isNameChar c = false := by
  simp only [Attribute.isGap, Bool.or_eq_true, beq_iff_eq] at h
  rcases h with ((rfl | rfl) | rfl) | rfl <;> decide

theorem isAsciiSpace_of_isGap {c : Char} (h : Attribute.isGap c = true) :
    isAsciiSpace c = true := by
  simp only [Attribute.isGap, Bool.or_eq_true, beq_iff_eq] at h
  rcases h with ((rfl | rfl) | rfl) | rfl <;> decide

namespace Attribute

theorem isNameChar_of_dottedName? {cs name behind : List Char}
    (h : dottedName? cs = some (name, behind)) : ∀ c ∈ name, isNameChar c = true := by
  obtain ⟨c, rest, rfl, hc, hrest⟩ := exists_head_of_dottedName? h
  exact List.forall_mem_cons.2 ⟨isNameChar_of_isIdentRest (isIdentRest_of_isIdentStart hc), hrest⟩

/-- Behind a name there is nothing, a blank, or the parenthesis of the arguments. -/
theorem isNameChar_head?_of_arguments? {behind : List Char} {ts : List Token} {args : List Arg}
    (hts : tokens? behind = some ts) (hargs : arguments? ts = some args) :
    ∀ c ∈ behind.head?, isNameChar c = false := by
  intro c hc
  match ts, hts, hargs with
  | [], hts, _ =>
    exact isNameChar_of_isGap (isGap_of_tokens?_eq_nil hts c (List.mem_of_mem_head? hc))
  | .openParen :: ts, hts, _ =>
    obtain ⟨gap, piece, rest, hgap, hspelled, rfl, -⟩ := exists_spelled_of_tokens? hts
    cases hspelled
    cases gap with
    | nil =>
      obtain rfl : '(' = c := by simpa using hc
      decide
    | cons d gap =>
      obtain rfl : d = c := by simpa using hc
      exact isNameChar_of_isGap (hgap d List.mem_cons_self)

/-- The raw name in a text that spells an attribute is the attribute's name exactly if no blank
stands behind the `@`. -/
theorem Spells.takeWhile_eq_iff {cs : List Char} {a : Attribute} (h : Spells cs a) :
    (cs.dropWhile (· == '@')).takeWhile isNameChar = a.name.toList ↔
      ∀ c ∈ (cs.dropWhile (· == '@')).head?, isGap c = false := by
  cases h with
  | @intro before gap name behind ts args hbefore hgap hname hts hargs =>
    obtain ⟨c, tail, hhead, hc, -⟩ := exists_head_of_dottedName? hname
    -- at a blank both sides fail, since no name is empty
    have hblank : ∀ {d : Char} (rest : List Char), isGap d = true →
        (((d :: rest).dropWhile (· == '@')).takeWhile isNameChar = name ↔
          ∀ e ∈ ((d :: rest).dropWhile (· == '@')).head?, isGap e = false) := by
      intro d rest hd
      have hat : d ≠ '@' := by
        rintro rfl
        exact absurd hd (by decide)
      rw [List.dropWhile_cons_of_neg (by simpa using hat),
        List.takeWhile_cons_of_neg (by simp [isNameChar_of_isGap hd]), hhead]
      simp [hd]
    rw [String.toList_ofList]
    cases before with
    | cons d before => exact hblank _ (hbefore d List.mem_cons_self)
    | nil =>
      rw [List.nil_append, List.dropWhile_cons_of_pos (by decide)]
      cases gap with
      | cons d gap => exact hblank _ (hgap d List.mem_cons_self)
      | nil =>
        have hat : c ≠ '@' := ne_of_isIdentStart hc (by decide)
        have hdrop : ([] ++ (name ++ behind)).dropWhile (· == '@') = name ++ behind := by
          rw [hhead, List.nil_append, List.cons_append,
            List.dropWhile_cons_of_neg (by simpa using hat)]
        have htake := takeWhile_append_of_head? (isNameChar_of_dottedName? hname)
          (isNameChar_head?_of_arguments? hts hargs)
        rw [hdrop, htake, hhead]
        simpa using isGap_of_isIdentStart hc

/-- The first of two `@` makes no difference to what stands behind them. -/
theorem dropWhile_dropDirectiveMark (cs : List Char) :
    (dropDirectiveMark cs).dropWhile (· == '@') = cs.dropWhile (· == '@') := by
  fun_cases dropDirectiveMark cs with
  | case1 cs => rfl
  | case2 => rfl

/-- **The two readers agree** on a word that spells an attribute exactly if no blank stands behind
its `@`. -/
theorem rawName_eq_name_iff {word : String} {a : Attribute} (h : parse? word = some a) :
    rawName word = a.name ↔ ∀ c ∈ (word.toList.dropWhile (· == '@')).head?, isGap c = false := by
  have hspells : Spells (dropDirectiveMark word.toList) a := ofChars?_eq_some_iff.1 h
  rw [rawName, ← String.toList_inj, String.toList_ofList, ← dropWhile_dropDirectiveMark]
  exact hspells.takeWhile_eq_iff

/-- A blank behind `@` is passed over by the grammar only. -/
example : (parse? "@ id").isSome = true ∧ rawName "@ id" = "" := by
  cbv

end Attribute

/-! ### Words of a body -/

/-- A word that is cut off has no blank behind the `@` in front of it, where no bracket is open. -/
theorem isAsciiSpace_head?_wordSpan (cs : List Char) :
    ∀ c ∈ ((wordSpan .code 0 cs).1.dropWhile (· == '@')).head?, isAsciiSpace c = false := by
  induction cs with
  | nil => simp [wordSpan]
  | cons c cs ih =>
    cases hend : endsWord .code 0 c cs with
    | true =>
      have hspan : wordSpan .code 0 (c :: cs) = ([], c :: cs) := by
        rw [wordSpan, Mode.reading_code]
        exact if_pos hend
      simp [hspan]
    | false =>
      obtain ⟨hspace, hcomment⟩ : isAsciiSpace c = false ∧ startsComment c cs = false := by
        simpa [endsWord] using hend
      rw [wordSpan_code_cons hspace hcomment]
      by_cases hat : c = '@'
      · subst hat
        exact ih
      · rw [List.dropWhile_cons_of_neg (by simpa using hat)]
        rintro d ⟨⟩
        exact hspace

/-- Every word of a text is cut off the front of some part of it, outside of brackets. -/
theorem exists_wordSpan_of_mem_tokensFrom {pos : Nat} {cs : List Char} {w : Word}
    (h : .word w ∈ tokensFrom pos cs) : ∃ part, w.text = (wordSpan .code 0 part).1 := by
  induction pos, cs using tokensFrom.induct with
  | case1 pos =>
    rw [tokensFrom] at h
    cases h
  | case2 pos cs ih =>
    rw [tokensFrom, if_pos rfl] at h
    exact ih ((List.mem_cons.1 h).resolve_left nofun)
  | case3 pos c cs hnl hspace ih =>
    rw [tokensFrom, if_neg hnl, if_pos hspace] at h
    exact ih h
  | case4 pos c cs hnl hspace hcomment ih =>
    rw [tokensFrom, if_neg hnl, if_neg hspace, if_pos hcomment] at h
    exact ih h
  | case5 pos c cs hnl hspace hcomment p stop ih =>
    rw [tokensFrom, if_neg hnl, if_neg hspace, if_neg hcomment] at h
    rcases List.mem_cons.1 h with heq | hrest
    · rw [Bool.not_eq_true] at hspace hcomment
      obtain rfl := Token.word.inj heq
      exact ⟨c :: cs, by rw [wordSpan_code_cons hspace hcomment]⟩
    · exact ih hrest

/-- **The two readers agree on the words of a body.** -/
theorem rawName_eq_name_of_mem_tokens {body : String} {w : Word} (hw : .word w ∈ tokens body)
    {a : Attribute} (h : Attribute.parse? (String.ofList w.text) = some a) :
    rawName (String.ofList w.text) = a.name := by
  obtain ⟨part, hpart⟩ := exists_wordSpan_of_mem_tokensFrom hw
  rw [Attribute.rawName_eq_name_iff h, String.toList_ofList, hpart]
  intro c hc
  refine Bool.eq_false_iff.2 fun hgap => ?_
  have hspace := isAsciiSpace_head?_wordSpan part c hc
  rw [isAsciiSpace_of_isGap hgap] at hspace
  cases hspace

/-! ### Fields -/

/-- What a field says by raw names fits the attributes that read well: both look at the same
words. -/
structure Field.NamesAgree (f : Field) : Prop where
  /-- A word that reads well begins with the name of its attribute. -/
  rawName_eq : ∀ w ∈ f.words, ∀ a, Attribute.parse? w = some a → rawName w = a.name
  /-- The attributes of a name are what the words of this raw name spell, in order. -/
  filter_attributes : ∀ name, f.attributes.filter (fun a => a.name == name) =
    (f.words.filter fun w => rawName w == name).filterMap Attribute.parse?
  /-- A field is unique by an attribute of this name, or by a malformed word. -/
  isUnique_iff : f.isUnique = true ↔ (∃ a ∈ f.attributes, a.name = "unique") ∨
    ∃ w ∈ f.words, rawName w = "unique" ∧ Attribute.parse? w = none
  /-- It identifies its model by an attribute whose name begins so, or by a malformed word. -/
  isId_iff : f.isId = true ↔ (∃ a ∈ f.attributes, "id".toList <+: a.name.toList) ∨
    ∃ w ∈ f.words, "@id".toList <+: w.toList ∧ Attribute.parse? w = none
  /-- The word that the default is read off spells the attribute, if it reads well. -/
  default : ∀ w a, f.words.find? (fun w => rawName w == "default") = some w →
    Attribute.parse? w = some a → f.default? = Default.ofWord? w ∧ f.attribute? "default" = some a

/-- A word with a single `@` begins with a name exactly if its raw name does. -/
theorem prefix_rawName_iff {word : String} {rest name : List Char}
    (hword : word.toList = '@' :: rest) (hrest : rest.head? ≠ some '@')
    (hname : ∀ c ∈ name, isNameChar c = true) :
    name <+: (rawName word).toList ↔ '@' :: name <+: word.toList := by
  have hdrop : rest.dropWhile (· == '@') = rest := by
    cases rest with
    | nil => rfl
    | cons c rest => exact List.dropWhile_cons_of_neg (by simpa using hrest)
  rw [rawName, String.toList_ofList, hword, List.dropWhile_cons_of_pos (by decide), hdrop,
    List.cons_prefix_cons]
  constructor
  · exact fun h => ⟨rfl, h.trans (List.takeWhile_prefix _)⟩
  · rintro ⟨-, behind, rfl⟩
    rw [List.takeWhile_append_of_pos hname]
    exact List.prefix_append _ _

namespace Field

variable {f : Field}

/-- The attributes of a name are found by the raw names of their words. -/
theorem filter_attributes_of_rawName_eq
    (h : ∀ w ∈ f.words, ∀ a, Attribute.parse? w = some a → rawName w = a.name) (name : String) :
    f.attributes.filter (fun a => a.name == name) =
      (f.words.filter fun w => rawName w == name).filterMap Attribute.parse? := by
  rw [attributes, List.filter_filterMap, List.filterMap_filter]
  refine List.filterMap_congr fun w hw => ?_
  cases hparse : Attribute.parse? w with
  | none => simp
  | some a =>
    rw [h w hw a hparse, Option.filter_some]

/-- Whether some word passes a test is told by the attributes that read well and by the malformed
words, if an attribute passes its test where its word does. -/
theorem exists_mem_words_iff {p : String → Prop} {q : Attribute → Prop}
    (h : ∀ w ∈ f.words, ∀ a, Attribute.parse? w = some a → (p w ↔ q a)) :
    (∃ w ∈ f.words, p w) ↔
      (∃ a ∈ f.attributes, q a) ∨ ∃ w ∈ f.words, p w ∧ Attribute.parse? w = none := by
  constructor
  · rintro ⟨w, hw, hp⟩
    cases hparse : Attribute.parse? w with
    | none => exact .inr ⟨w, hw, hp, hparse⟩
    | some a => exact .inl ⟨a, List.mem_filterMap.2 ⟨w, hw, hparse⟩, (h w hw a hparse).1 hp⟩
  · rintro (⟨a, ha, hq⟩ | ⟨w, hw, hp, -⟩)
    · obtain ⟨w, hw, hparse⟩ := List.mem_filterMap.1 ha
      exact ⟨w, hw, (h w hw a hparse).2 hq⟩
    · exact ⟨w, hw, hp⟩

/-- **What a field says by raw names fits its attributes**, if its words have a single `@` in front
and the two readers agree on them. -/
theorem namesAgree_of_rawName_eq
    (hmarks : ∀ w ∈ f.words, ∃ rest, w.toList = '@' :: rest ∧ rest.head? ≠ some '@')
    (h : ∀ w ∈ f.words, ∀ a, Attribute.parse? w = some a → rawName w = a.name) :
    f.NamesAgree where
  rawName_eq := h
  filter_attributes := filter_attributes_of_rawName_eq h
  isUnique_iff := by
    simp only [isUnique, List.any_eq_true, beq_iff_eq]
    refine exists_mem_words_iff fun w hw a hparse => ?_
    rw [h w hw a hparse]
  isId_iff := by
    simp only [isId, List.any_eq_true, List.isPrefixOf_iff_prefix]
    refine exists_mem_words_iff fun w hw a hparse => ?_
    obtain ⟨rest, hword, hrest⟩ := hmarks w hw
    rw [← h w hw a hparse]
    exact (prefix_rawName_iff hword hrest (List.all_eq_true.1 (by decide))).symm
  default := by
    intro w a hfind hparse
    refine ⟨by rw [default?, hfind, Option.bind_some], ?_⟩
    rw [attribute?, ← List.head?_filter, filter_attributes_of_rawName_eq h]
    rw [← List.head?_filter] at hfind
    obtain ⟨rest, hwords⟩ := List.head?_eq_some_iff.1 hfind
    rw [hwords, List.filterMap_cons_some hparse, List.head?_cons]

end Field

/-! ### Models -/

/-- The attribute that a directive spells. -/
def Declaration.attribute? : Declaration → Option Attribute
  | .field _ => none
  | .directive w => Attribute.parse? (String.ofList w.text)

namespace Model

variable {b : Block}

theorem namesAgree_of_mem_fields {names : Names} {f : Field} (h : f ∈ (ofBlock names b).fields) :
    f.NamesAgree := by
  obtain ⟨ws, hd, hf⟩ := exists_words_of_mem_fields h
  have hnone : ∀ w ∈ ([] : List Word), w.isDirective = false := nofun
  refine Field.namesAgree_of_rawName_eq ?_ ?_
  · intro word hword
    obtain ⟨w, hw, hattribute, rfl⟩ := Field.exists_word_of_mem_words hf hword
    rw [String.toList_ofList]
    exact Word.exists_eq_cons_of_isAttribute hattribute (isDirective_of_mem_field hnone hd w hw)
  · intro word hword a hparse
    obtain ⟨w, hw, -, rfl⟩ := Field.exists_word_of_mem_words hf hword
    exact rawName_eq_name_of_mem_tokens (mem_tokens_of_mem_words hd hw) hparse

/-- The name that a directive gives is told by its attribute alone. -/
theorem mapNameOf?_eq {body : String} {d : Declaration} (hd : d ∈ declarations body) :
    mapNameOf? d = ((d.attribute?.filter fun a => a.name == "map").bind
      Attribute.firstValue?).bind Attribute.Value.string? := by
  cases d with
  | field ws => rfl
  | directive w =>
    have hw : .word w ∈ tokens body := mem_tokens_of_mem_words hd List.mem_cons_self
    rw [mapNameOf?, Declaration.attribute?]
    cases hparse : Attribute.parse? (String.ofList w.text) with
    | none => simp
    | some a =>
      simp only [rawName_eq_name_of_mem_tokens hw hparse, Option.filter_some]
      split <;> rfl

/-- **The two readers of attribute names agree.** Every word of a body that the grammar accepts has
the name of its attribute as its raw name; so what the fields of a model say by raw names fits their
attributes, and the name in the database is that of the first attribute `map` that gives one. -/
theorem namesAgree_ofBlock (names : Names) (b : Block) :
    (∀ w, .word w ∈ tokens b.body → ∀ a, Attribute.parse? (String.ofList w.text) = some a →
      rawName (String.ofList w.text) = a.name) ∧
    (∀ f ∈ (ofBlock names b).fields, f.NamesAgree) ∧
    (ofBlock names b).mapName = (declarations b.body).findSome? fun d =>
      ((d.attribute?.filter fun a => a.name == "map").bind
        Attribute.firstValue?).bind Attribute.Value.string? := by
  refine ⟨fun w hw a => rawName_eq_name_of_mem_tokens hw,
    fun f hf => namesAgree_of_mem_fields hf, ?_⟩
  rw [ofBlock, ← List.head?_filterMap, ← List.head?_filterMap]
  exact congrArg List.head? (List.filterMap_congr fun d hd => mapNameOf?_eq hd)

/-- Blanks in the brackets of a word do not end it. -/
theorem namesAgree_ofBlock_spread :
    let body := "\n email String @db.Set(\n [A, B] ) @unique\n"
    let b : Block := ⟨.model, "User", "model User \x7b" ++ body ++ "\x7d", body, ⟨0, 55⟩, 12⟩
    let w : Word := ⟨"@db.Set(\n [A, B] )".toList, ⟨15, 33⟩⟩
    let a : Attribute := ⟨"db.Set", [⟨none, .list [.word "A", .word "B"]⟩]⟩
    .word w ∈ tokens b.body ∧ Attribute.parse? (String.ofList w.text) = some a ∧
      rawName (String.ofList w.text) = a.name ∧
      ∃ f ∈ (ofBlock ⟨["User"], []⟩ b).fields, f.isUnique = true ∧ f.NamesAgree := by
  intro body b w a
  have hw : .word w ∈ tokens b.body := by decide +kernel
  have hparse : Attribute.parse? (String.ofList w.text) = some a := by cbv
  obtain ⟨hwords, hfields, -⟩ := namesAgree_ofBlock ⟨["User"], []⟩ b
  obtain ⟨f, hf, hunique⟩ : ∃ f ∈ (ofBlock ⟨["User"], []⟩ b).fields, f.isUnique = true := by
    decide +kernel
  exact ⟨hw, hparse, hwords w hw a hparse, f, hf, hunique, hfields f hf⟩

end Model

end Sieve.Schema
