import Sieve.Proofs.Schema.AttributeTokens
import Sieve.Proofs.Schema.Placement

/-!
# Rendering schemas

A document is written out again as a schema text: a block for each enum and each model, in any
order, joined by line breaks. Between the parts of a model's body stands a blank or a line break,
whichever is chosen for that gap; the name in the database is a directive, which may stand in front
of any of the fields or behind them.

Here is the rendering, and what the scanner for words and the grouping into declarations make of the
body of a rendered model.

## Main definitions

* `Field.Spellable` — a field whose declaration can be read back
* `Part` — a field of a model, or its directive
* `bodyOf` — the parts of a body, each with the gap in front of it

## Main results

* `bodySpan?_bodyOf`, `group_bodyOf` — where a rendered body ends, and its declarations
* `Field.ofWords?_spelling` — reading a field's declaration back
* `mapNameOf?_directive` — reading the directive back
-/

namespace Sieve.Schema

open Sieve.Text

/-! ### Words and gaps -/

/-- The word without a place. -/
def bareWord (w : List Char) : Word := ⟨w, .zero⟩

/-- Words with a blank between them. -/
def spaced : List (List Char) → List Char
  | [] => []
  | w :: ws => w ++ ws.flatMap (' ' :: ·)

/-- A gap: a line break, or else a blank. -/
def gap (broken : Bool) : Char := if broken then '\n' else ' '

/-- The parts of a body, each with the gap in front of it, and the gap behind the last one. -/
def bodyOf (breaks : Nat → Bool) : List (List Char) → List Char
  | [] => [gap (breaks 0)]
  | p :: ps => gap (breaks 0) :: (p ++ bodyOf (fun i => breaks (i + 1)) ps)

/-- The word can be cut out of a body. -/
def IsWhole (w : List Char) : Prop := w ≠ [] ∧ walk .code 0 w = some (.code, 0)

theorem isWhole_of_isIdent {cs : List Char} (h : isIdent cs = true) : IsWhole cs := by
  obtain ⟨c, rest, rfl, -, -⟩ := exists_head_of_isIdent h
  refine ⟨List.cons_ne_nil _ _, walk_of_quiet (fun d hd => ?_) 0⟩
  exact isQuiet_of_isIdentRest (isIdentRest_of_isIdent h d hd)

theorem isAsciiSpace_gap (broken : Bool) : isAsciiSpace (gap broken) = true := by
  cases broken <;> decide

theorem bareTokens_flatMap {ws : List (List Char)} (h : ∀ w ∈ ws, IsWhole w) {c : Char}
    (hc : isAsciiSpace c = true) (cs : List Char) :
    bareTokens (ws.flatMap (' ' :: ·) ++ c :: cs) =
      ws.map (fun w => .word (bareWord w)) ++ bareTokens (c :: cs) := by
  induction ws with
  | nil => rfl
  | cons w ws ih =>
    obtain ⟨hw, hws⟩ := List.forall_mem_cons.1 h
    rw [List.flatMap_cons, List.append_assoc, List.cons_append, bareTokens_space, List.map_cons,
      List.cons_append, ← ih hws]
    cases ws with
    | nil => exact bareTokens_word hw.2 hw.1 hc cs
    | cons v vs => exact bareTokens_word hw.2 hw.1 (by decide) _

theorem bareTokens_spaced {ws : List (List Char)} (h : ∀ w ∈ ws, IsWhole w) {c : Char}
    (hc : isAsciiSpace c = true) (cs : List Char) :
    bareTokens (spaced ws ++ c :: cs) =
      ws.map (fun w => .word (bareWord w)) ++ bareTokens (c :: cs) := by
  cases ws with
  | nil => rfl
  | cons w ws =>
    -- a blank in front changes nothing, and then every word has one
    rw [← bareTokens_flatMap h hc, List.flatMap_cons, List.append_assoc, List.cons_append,
      bareTokens_space, spaced, List.append_assoc]

theorem bodySpan?_blank {c : Char} (hc : isAsciiSpace c = true) (braces : Nat) (cs : List Char) :
    bodySpan? .code braces (c :: cs) =
      (bodySpan? .code braces cs).map fun p => (c :: p.1, p.2) := by
  have hread : Mode.code.reading c = .code := by simp [Mode.reading]
  simp only [isAsciiSpace, Bool.or_eq_true, beq_iff_eq] at hc
  rcases hc with (((rfl | rfl) | rfl) | rfl) | rfl <;> rfl

theorem bodySpan?_flatMap {ws : List (List Char)} (h : ∀ w ∈ ws, IsWhole w) (braces : Nat)
    (cs : List Char) : bodySpan? .code braces (ws.flatMap (' ' :: ·) ++ cs) =
      (bodySpan? .code braces cs).map fun p => (ws.flatMap (' ' :: ·) ++ p.1, p.2) := by
  induction ws with
  | nil => simp
  | cons w ws ih =>
    obtain ⟨hw, hws⟩ := List.forall_mem_cons.1 h
    rw [List.flatMap_cons, List.append_assoc, List.cons_append, bodySpan?_blank (by decide),
      bodySpan?_of_walk hw.2, ih hws, Option.map_map, Option.map_map]
    congr 1
    funext p
    simp

theorem bodySpan?_spaced {ws : List (List Char)} (h : ∀ w ∈ ws, IsWhole w) (braces : Nat)
    (cs : List Char) : bodySpan? .code braces (spaced ws ++ cs) =
      (bodySpan? .code braces cs).map fun p => (spaced ws ++ p.1, p.2) := by
  cases ws with
  | nil => simp [spaced]
  | cons w ws =>
    obtain ⟨hw, hws⟩ := List.forall_mem_cons.1 h
    rw [spaced, List.append_assoc, bodySpan?_of_walk hw.2, bodySpan?_flatMap hws, Option.map_map]
    congr 1
    funext p
    simp

/-- **A rendered body ends where its brace closes it.** -/
theorem bodySpan?_bodyOf {parts : List (List (List Char))}
    (h : ∀ ws ∈ parts, ∀ w ∈ ws, IsWhole w) (breaks : Nat → Bool) (cs : List Char) :
    bodySpan? .code 0 (bodyOf breaks (parts.map spaced) ++ '\x7d' :: cs) =
      some (bodyOf breaks (parts.map spaced), cs) := by
  induction parts generalizing breaks with
  | nil =>
    rw [List.map_nil, bodyOf, List.singleton_append, bodySpan?_blank (isAsciiSpace_gap _)]
    rfl
  | cons ws parts ih =>
    obtain ⟨hws, hparts⟩ := List.forall_mem_cons.1 h
    rw [List.map_cons, bodyOf, List.cons_append, List.append_assoc,
      bodySpan?_blank (isAsciiSpace_gap _), bodySpan?_spaced hws, ih hparts]
    rfl

/-! ### Fields -/

namespace Field

/-- The marks behind the type of a field. -/
def marks (f : Field) : List Char :=
  (if f.isArray then ['[', ']'] else []) ++ if f.isOptional then ['?'] else []

/-- The words of a field's declaration. -/
def spelling (f : Field) : List (List Char) :=
  f.name.toList :: (f.type.toList ++ f.marks) :: f.words.map String.toList

/-- The declaration of the field can be read back: its name and its type are identifiers, its words
are attributes without line breaks in string literals, and they contain a question mark only if the
field is optional. -/
structure Spellable (f : Field) : Prop where
  name : isIdent f.name.toList = true
  type : isIdent f.type.toList = true
  words : ∀ w ∈ f.words, Attribute.IsWord w.toList ∧ keepsLines .code w.toList = true
  optional : f.isOptional = false → ∀ w ∈ f.words, '?' ∉ w.toList

/-- The field with its type looked up. -/
def resolved (names : Names) (f : Field) : Field := { f with kind := Kind.resolve names f.type }

/-- The declaration of a field is its words with a blank between them. -/
theorem toList_text (f : Field) : f.text.toList = spaced f.spelling := by
  have hwords : (String.join (f.words.map (" " ++ ·))).toList =
      (f.words.map String.toList).flatMap (' ' :: ·) := by
    rw [String.toList_join, List.flatMap_map, List.flatMap_map]
    simp
  rw [text, spelling, spaced, marks, String.toList_append, hwords]
  cases f.isArray <;> cases f.isOptional <;> simp

/-! ### The words of a field -/

theorem Spellable.isWhole {f : Field} (h : f.Spellable) : ∀ w ∈ f.spelling, IsWhole w := by
  refine List.forall_mem_cons.2 ⟨isWhole_of_isIdent h.name, List.forall_mem_cons.2 ⟨?_, ?_⟩⟩
  · refine ⟨?_, ?_⟩
    · exact List.append_ne_nil_of_left_ne_nil (isWhole_of_isIdent h.type).1 _
    · rw [walk_append, (isWhole_of_isIdent h.type).2, Option.bind_some, marks]
      cases f.isArray <;> cases f.isOptional <;> decide
  · rw [List.forall_mem_map]
    intro w hw
    obtain ⟨hword, hlines⟩ := h.words w hw
    refine ⟨?_, hword.walk hlines⟩
    obtain ⟨name, behind, heq, -⟩ := hword
    rw [heq]
    exact List.cons_ne_nil _ _

theorem dropEnd?_append (cs mark : List Char) : dropEnd? mark (cs ++ mark) = some cs := by
  have hsuffix : mark.isSuffixOf (cs ++ mark) = true :=
    List.isSuffixOf_iff_suffix.2 (List.suffix_append cs mark)
  rw [dropEnd?, if_pos hsuffix, List.length_append, Nat.add_sub_cancel, List.take_left]

/-- An identifier does not end in a mark. -/
theorem dropEnd?_of_isIdent {cs : List Char} (h : isIdent cs = true) {c : Char}
    (hc : isIdentRest c = false) (mark : List Char) : dropEnd? (mark ++ [c]) cs = none := by
  rw [dropEnd?, if_neg]
  rw [List.isSuffixOf_iff_suffix]
  rintro ⟨pre, rfl⟩
  have hident := isIdentRest_of_isIdent h c (by simp)
  rw [hc] at hident
  cases hident

/-- Marks come off the end of a type as they were put there. -/
theorem splitMarks_marks (f : Field) {type : List Char} (h : isIdent type = true) :
    splitMarks (type ++ f.marks) = ⟨type, f.isArray, f.isOptional⟩ := by
  have hquestion : dropEnd? ['?'] type = none := dropEnd?_of_isIdent h (by decide) []
  have hbrackets : dropEnd? ['[', ']'] type = none := dropEnd?_of_isIdent h (by decide) ['[']
  have hbehind : dropEnd? ['?'] (type ++ ['[', ']']) = none := by
    simp [dropEnd?, List.isSuffixOf, List.isPrefixOf]
  rw [marks]
  cases f.isArray with
  | false =>
    cases f.isOptional with
    | false => simp [splitMarks, hquestion, hbrackets]
    | true =>
      have hdrop := dropEnd?_append type ['?']
      simp [splitMarks, hquestion, hbrackets, hdrop]
  | true =>
    have hdrop := dropEnd?_append type ['[', ']']
    cases f.isOptional with
    | false => simp [splitMarks, hquestion, hbehind, hdrop]
    | true =>
      have hboth := dropEnd?_append (type ++ ['[', ']']) ['?']
      rw [List.append_assoc] at hboth
      simp only [if_true, splitMarks]
      rw [hboth]
      simp [hquestion, hdrop]

/-- A question mark in the declaration of a field makes it optional, and is there if it is. -/
theorem Spellable.any_contains_spelling {f : Field} (h : f.Spellable) :
    f.spelling.any (fun w => w.contains '?') = f.isOptional := by
  have hident : ∀ {s : String}, isIdent s.toList = true → '?' ∉ s.toList := fun hs hq => by
    have hrest := isIdentRest_of_isIdent hs '?' hq
    exact absurd hrest (by decide)
  cases ho : f.isOptional with
  | true => simp [spelling, marks, ho]
  | false =>
    rw [List.any_eq_false]
    intro w hw
    rw [List.contains_iff_mem]
    rcases List.mem_cons.1 hw with rfl | hw
    · exact hident h.name
    · rcases List.mem_cons.1 hw with rfl | hw
      · rw [List.mem_append, marks, ho]
        rintro (hq | hq)
        · exact hident h.type hq
        · cases f.isArray <;> simp at hq
      · obtain ⟨s, hs, rfl⟩ := List.mem_map.1 hw
        exact h.optional ho s hs

/-- **Reading a field's declaration back.** -/
theorem ofWords?_spelling {f : Field} (h : f.Spellable) (names : Names) :
    (ofWords? names 0 (f.spelling.map bareWord)).map unplaced =
      some (f.resolved names).unplaced := by
  obtain ⟨c, rest, hname, hc, -⟩ := exists_head_of_isIdent h.name
  have hstart : (bareWord f.name.toList).startsIdent = true := by
    rw [Word.startsIdent, bareWord, hname]
    exact hc
  have hattr : ∀ w ∈ f.words.map (bareWord ∘ String.toList), w.isAttribute = true := by
    rw [List.forall_mem_map]
    intro w hw
    obtain ⟨name, behind, heq, -⟩ := (h.words w hw).1
    show (String.toList w).head? == some '@'
    rw [heq]
    rfl
  have hmarks : (f.words.map (bareWord ∘ String.toList)).filterMap Word.marks? = [] := by
    rw [List.filterMap_eq_nil_iff]
    intro w hw
    simp [Word.marks?, hattr w hw]
  have hwords : ((f.words.map (bareWord ∘ String.toList)).filter Word.isAttribute).map
      (fun w => String.ofList w.text) = f.words := by
    rw [List.filter_eq_self.2 hattr, List.map_map]
    simp [Function.comp_def, bareWord]
  have hquestion : (f.spelling.map bareWord).any (fun w => w.text.contains '?') = f.isOptional := by
    rw [List.any_map]
    exact h.any_contains_spelling
  rw [spelling, List.map_cons, List.map_cons, List.map_map] at hquestion ⊢
  rw [ofWords?, if_pos hstart]
  dsimp only
  rw [hquestion, hmarks, hwords, Option.map_some]
  simp only [bareWord, splitMarks_marks f h.type]
  simp [resolved, unplaced]

end Field

/-! ### The directive -/

/-- The inside of a string literal that spells the text. -/
def escape (cs : List Char) : List Char := cs.flatMap fun c =>
  if c = '\\' then ['\\', '\\'] else if c = '"' then ['\\', '"']
  else if c = '\n' then ['\\', 'n'] else [c]

/-- The name in the database as the only argument of a directive. -/
def mapArguments (name : String) : List Char := '(' :: '"' :: (escape name.toList ++ ['"', ')'])

/-- The directive that gives a model its name in the database. -/
def mapDirective (name : String) : List Char := "@@map".toList ++ mapArguments name

/-- One character is written as it is, or with a backslash in front. -/
theorem escape_cons (c : Char) (cs : List Char) :
    (escape (c :: cs) = c :: escape cs ∧ c ≠ '\\' ∧ c ≠ '"' ∧ c ≠ '\n') ∨
      ∃ d, escape (c :: cs) = '\\' :: d :: escape cs ∧ d ≠ '\n' := by
  rw [escape, List.flatMap_cons, ← escape]
  split
  · exact Or.inr ⟨'\\', rfl, by decide⟩
  · split
    · exact Or.inr ⟨'"', rfl, by decide⟩
    · split
      · exact Or.inr ⟨'n', rfl, by decide⟩
      · next h₁ h₂ h₃ => exact Or.inl ⟨rfl, h₁, h₂, h₃⟩

theorem escapes_escape (c : Char) : Attribute.Escapes c
    (if c = '\\' then ['\\', '\\'] else if c = '"' then ['\\', '"']
    else if c = '\n' then ['\\', 'n'] else [c]) := by
  split
  · next hc => exact .escaped hc.symm
  · next hback =>
    split
    · next hc => exact .escaped hc.symm
    · next hquote =>
      split
      · next hc => exact .escaped hc.symm
      · exact .plain hquote hback

theorem unescape_escape (cs : List Char) : Attribute.unescape (escape cs) = cs :=
  Attribute.unescape_flatMap escapes_escape cs

theorem literalSpan?_escape (cs rest : List Char) :
    Attribute.literalSpan? (escape cs ++ '"' :: rest) = some (escape cs, rest) :=
  (Attribute.inside_flatMap escapes_escape cs).literalSpan?_append rest

/-- An escaped text is passed over inside a string literal. -/
theorem walk_escape (cs : List Char) (depth : Nat) (rest : List Char) :
    walk .string depth (escape cs ++ rest) = walk .string depth rest := by
  induction cs with
  | nil => rfl
  | cons c cs ih =>
    rcases escape_cons c cs with ⟨heq, hback, hquote, hnl⟩ | ⟨d, heq, hnl⟩
    · have halert : alerts .string depth c = false := by simpa [alerts] using hnl
      rw [heq, List.cons_append, walk_cons halert, Mode.afterWord, if_neg hback, if_neg hquote]
      exact ih
    · have hback : alerts .string depth '\\' = false := rfl
      have halert : alerts .escape depth d = false := by simpa [alerts] using hnl
      rw [heq, List.cons_append, List.cons_append, walk_cons hback, ← ih]
      exact walk_cons halert _

theorem isWhole_mapDirective (name : String) : IsWhole (mapDirective name) := by
  refine ⟨List.append_ne_nil_of_left_ne_nil (by decide) _, ?_⟩
  rw [mapDirective, mapArguments, walk_quiet (List.all_eq_true.1 (by decide)),
    walk_cons (by decide), walk_cons (by decide)]
  exact walk_escape name.toList 1 ['"', ')']

/-- **Reading the directive back.** -/
theorem mapNameOf?_directive (name : String) :
    Model.mapNameOf? (.directive (bareWord (mapDirective name))) = some name := by
  have htokens : Attribute.tokens? (mapArguments name) =
      some [.openParen, .literal (.string name), .closeParen] := by
    have hnil : Attribute.tokens? [] = some [] := by rw [Attribute.tokens?]
    have hspan := literalSpan?_escape name.toList [')']
    rw [mapArguments, Attribute.tokens?_openParen, Attribute.tokens?_quote hspan,
      Attribute.tokens?_closeParen, hnil, unescape_escape, String.ofList_toList]
    rfl
  have hraw : rawName (String.ofList (mapDirective name)) = "map" := by
    rw [rawName, String.toList_ofList]
    rfl
  have hparse : Attribute.parse? (String.ofList (mapDirective name)) =
      some ⟨"map", [⟨none, .string name⟩]⟩ := by
    have hname : Attribute.dottedName? ("map".toList ++ mapArguments name) =
        some ("map".toList, mapArguments name) := rfl
    have hread := (Attribute.parse?_name hname).2
    rw [htokens] at hread
    exact hread
  rw [Model.mapNameOf?, bareWord, hraw]
  dsimp only
  rw [hparse]
  rfl

/-! ### The parts of a body -/

/-- A part of a model's body: a field, or the directive that gives a name in the database. -/
inductive Part where
  | field (f : Field)
  | directive (name : String)

namespace Part

/-- The words of the part. -/
def words : Part → List (List Char)
  | field f => f.spelling
  | directive name => [mapDirective name]

/-- The part as text: a field is written as it shows itself. -/
def text : Part → List Char
  | field f => f.text.toList
  | directive name => mapDirective name

/-- The declaration that the part is. -/
def declaration : Part → Declaration
  | field f => .field (f.spelling.map bareWord)
  | directive name => .directive (bareWord (mapDirective name))

/-- The part can be read back. -/
def Spellable : Part → Prop
  | field f => f.Spellable
  | directive _ => True

theorem text_eq_spaced (p : Part) : p.text = spaced p.words := by
  cases p with
  | field f => exact f.toList_text
  | directive name => simp [text, words, spaced]

theorem Spellable.isWhole {p : Part} (h : p.Spellable) : ∀ w ∈ p.words, IsWhole w := by
  cases p with
  | field f => exact Field.Spellable.isWhole h
  | directive name => exact List.forall_mem_singleton.2 (isWhole_mapDirective name)

end Part

/-! ### Grouping a rendered body -/

theorem isBrace_bareWord {c : Char} (hopen : c ≠ '\x7b') (hclose : c ≠ '\x7d') (cs : List Char) :
    (bareWord (c :: cs)).isBrace = false := by
  simp [Word.isBrace, bareWord, hopen, hclose]

/-- A word that begins like an identifier is neither a brace nor a directive. -/
theorem marks_of_isIdentStart {c : Char} (hc : isIdentStart c = true) (cs : List Char) :
    (bareWord (c :: cs)).isBrace = false ∧ (bareWord (c :: cs)).isDirective = false ∧
      (bareWord (c :: cs)).startsIdent = true := by
  have hat : c ≠ '@' := ne_of_isIdentStart hc (by decide)
  refine ⟨isBrace_bareWord (ne_of_isIdentStart hc (by decide))
    (ne_of_isIdentStart hc (by decide)) cs, ?_, hc⟩
  simp [Word.isDirective, bareWord, List.isPrefixOf, hat.symm]

/-- Attribute words join the declaration before them. -/
theorem group_attributes {ws : List String} (h : ∀ w ∈ ws, Attribute.IsWord w.toList)
    (current : List Word) (ts : List Token) :
    group current (ws.map (fun w => .word (bareWord w.toList)) ++ ts) =
      group (current ++ ws.map fun w => bareWord w.toList) ts := by
  induction ws generalizing current with
  | nil => simp
  | cons w ws ih =>
    obtain ⟨⟨name, behind, heq, hname, -⟩, hws⟩ := List.forall_mem_cons.1 h
    obtain ⟨c, rest, rfl, hc, -⟩ := Attribute.exists_head_of_dottedName? hname
    have hat : c ≠ '@' := ne_of_isIdentStart hc (by decide)
    have hbrace : (bareWord w.toList).isBrace = false := by
      rw [heq]
      exact isBrace_bareWord (by decide) (by decide) _
    have hdirective : (bareWord w.toList).isDirective = false := by
      rw [heq]
      simp [Word.isDirective, bareWord, List.isPrefixOf, hat.symm]
    have hstart : (bareWord w.toList).startsIdent = false := by
      rw [heq]
      rfl
    rw [List.map_cons, List.cons_append, group, hbrace, hdirective, hstart, Bool.and_false]
    simp only [Bool.false_eq_true, if_false]
    rw [ih hws, List.map_cons, List.append_assoc, List.singleton_append]

/-- The words of a field that is begun: none of it, or its name and its type at least. -/
def IsBegun (current : List Word) : Prop := current = [] ∨ 2 ≤ current.length

namespace Part

/-- What grouping has put out when it is through the words of a part. -/
def done : Part → List Declaration
  | field _ => []
  | directive name => [.directive (bareWord (mapDirective name))]

/-- What grouping has begun when it is through the words of a part. -/
def begun : Part → List Word
  | field f => f.spelling.map bareWord
  | directive _ => []

theorem done_append_begun (p : Part) : p.done ++ fieldOf p.begun = [p.declaration] := by
  cases p <;> rfl

theorem isBegun_begun (p : Part) : IsBegun p.begun := by
  cases p with
  | field f => exact Or.inr (by simp [begun, Field.spelling])
  | directive name => exact Or.inl rfl

end Part

/-- The words of a part end the declaration begun before them, and begin another. -/
theorem group_part {p : Part} (h : p.Spellable) {current : List Word} (hcurrent : IsBegun current)
    (ts : List Token) : group current (p.words.map (fun w => .word (bareWord w)) ++ ts) =
      fieldOf current ++ (p.done ++ group p.begun ts) := by
  cases p with
  | directive name =>
    have hbrace : (bareWord (mapDirective name)).isBrace = false :=
      isBrace_bareWord (by decide) (by decide) _
    have hdirective : (bareWord (mapDirective name)).isDirective = true := rfl
    rw [Part.words, List.map_singleton, List.singleton_append, group, hbrace, hdirective]
    rfl
  | field f =>
    obtain ⟨c, cs, hname, hc, -⟩ := exists_head_of_isIdent h.name
    obtain ⟨d, ds, htype, hd, -⟩ := exists_head_of_isIdent h.type
    obtain ⟨hnameBrace, hnameDirective, hnameStart⟩ := marks_of_isIdentStart hc cs
    obtain ⟨htypeBrace, htypeDirective, -⟩ := marks_of_isIdentStart hd (ds ++ f.marks)
    have hfirst : ∀ ts : List Token, group current (.word (bareWord f.name.toList) :: ts) =
        fieldOf current ++ group [bareWord f.name.toList] ts := by
      intro ts
      rw [group, hname, hnameBrace, hnameDirective, hnameStart, Bool.and_true]
      rcases hcurrent with rfl | hlong
      · rfl
      · simp [hlong]
    have hsecond : ∀ ts : List Token, group [bareWord f.name.toList]
        (.word (bareWord (f.type.toList ++ f.marks)) :: ts) =
        group [bareWord f.name.toList, bareWord (f.type.toList ++ f.marks)] ts := by
      intro ts
      rw [group, htype, List.cons_append, htypeBrace, htypeDirective]
      rfl
    have hwords : ∀ w ∈ f.words, Attribute.IsWord w.toList := fun w hw => (h.words w hw).1
    have hbegun : (Part.field f).begun =
        [bareWord f.name.toList, bareWord (f.type.toList ++ f.marks)] ++
          f.words.map fun w => bareWord w.toList := by
      rw [Part.begun, Field.spelling, List.map_cons, List.map_cons, List.map_map]
      rfl
    rw [Part.words, Field.spelling, List.map_cons, List.map_cons, List.cons_append,
      List.cons_append, hfirst, hsecond, List.map_map, hbegun, ← group_attributes hwords]
    rfl

/-- A gap ends what is begun, or lets it go on; what comes next ends it anyway. -/
theorem group_gap {cs : List Char} {ds : List Declaration}
    (h : ∀ current, IsBegun current → group current (bareTokens cs) = fieldOf current ++ ds)
    (broken : Bool) {current : List Word} (hcurrent : IsBegun current) :
    group current (bareTokens (gap broken :: cs)) = fieldOf current ++ ds := by
  cases broken with
  | false =>
    show group current (bareTokens (' ' :: cs)) = _
    rw [bareTokens_space, h current hcurrent]
  | true =>
    show group current (bareTokens ('\n' :: cs)) = _
    rw [bareTokens_newline, group, h [] (Or.inl rfl)]
    rfl

theorem bodyOf_eq_cons (breaks : Nat → Bool) (ps : List (List Char)) :
    ∃ cs, bodyOf breaks ps = gap (breaks 0) :: cs := by
  cases ps with
  | nil => exact ⟨[], rfl⟩
  | cons p ps => exact ⟨_, rfl⟩

/-- **Grouping a rendered body gives the declarations of its parts.** -/
theorem group_bodyOf {parts : List Part} (h : ∀ p ∈ parts, p.Spellable) (breaks : Nat → Bool)
    {current : List Word} (hcurrent : IsBegun current) :
    group current (bareTokens (bodyOf breaks (parts.map Part.text))) =
      fieldOf current ++ parts.map Part.declaration := by
  induction parts generalizing breaks current with
  | nil =>
    refine group_gap (fun current _ => ?_) (breaks 0) hcurrent
    rw [bareTokens_nil, group, List.map_nil, List.append_nil]
  | cons p parts ih =>
    obtain ⟨hp, hparts⟩ := List.forall_mem_cons.1 h
    refine group_gap (fun current hcurrent => ?_) (breaks 0) hcurrent
    have hrest := ih hparts (fun i => breaks (i + 1)) p.isBegun_begun
    obtain ⟨cs, hcs⟩ := bodyOf_eq_cons (fun i => breaks (i + 1)) (parts.map Part.text)
    rw [hcs] at hrest
    rw [hcs, p.text_eq_spaced, bareTokens_spaced hp.isWhole (isAsciiSpace_gap _),
      group_part hp hcurrent, hrest, ← List.append_assoc p.done, p.done_append_begun,
      List.map_cons, List.singleton_append]

end Sieve.Schema
