import Sieve.Proofs.Schema.BlockText
import Sieve.Proofs.Schema.Placement

/-!
# Comments between words

A comment outside of words, or right behind a word outside of its brackets, can be left out up to
its line break: the words stay the same. Inside of brackets this is not so, since two slashes begin
no comment there.

Which of these it is, is told by the place where the search for words stands. The words of a text
are put together one character at a time from the place before the character, the one after it,
and the words found from there on. A comment changes nothing at its own place, so it changes nothing
further in front.

## Main definitions

* `WordPlace` — where the search for words stands
* `WordPlace.after`, `WordPlace.run` — the place after a character, and after a text
* `WordPlace.resume` — what is found from a place on

## Main results

* `WordPlace.resume_cons` — what is found from a place on, told by what is found one character later
* `bareTokens_comment` — a comment outside of brackets can be left out
-/

namespace Sieve.Schema

open Sieve.Text

/-! ### Words found one by one -/

theorem bareTokens_blank {c : Char} (h : isAsciiSpace c = true) (hnl : c ≠ '\n')
    (cs : List Char) : bareTokens (c :: cs) = bareTokens cs := by
  rw [bareTokens, tokensFrom, if_neg hnl, if_pos h, map_unplaced_tokensFrom _ 0]
  rfl

theorem bareTokens_of_startsComment {c : Char} {cs : List Char} (h : startsComment c cs = true) :
    bareTokens (c :: cs) = bareTokens (cs.dropWhile (· ≠ '\n')) := by
  have hslash : c = '/' := by
    rw [startsComment, Bool.and_eq_true, beq_iff_eq] at h
    exact h.1
  subst hslash
  rw [bareTokens, tokensFrom, if_neg (by decide), if_neg (by decide), if_pos h,
    map_unplaced_tokensFrom _ 0]
  rfl

theorem bareTokens_of_word {c : Char} {cs : List Char} (hspace : isAsciiSpace c = false)
    (hcomment : startsComment c cs = false) :
    bareTokens (c :: cs) =
      .word ⟨c :: (wordSpan (Mode.code.afterWord c) (groupDepth 0 c) cs).1, .zero⟩ ::
        bareTokens (wordSpan (Mode.code.afterWord c) (groupDepth 0 c) cs).2 := by
  have hnl : c ≠ '\n' := by
    rintro rfl
    cases hspace
  rw [bareTokens, tokensFrom, if_neg hnl, if_neg (by simp [hspace]), if_neg (by simp [hcomment])]
  simp only [List.map_cons]
  rw [map_unplaced_tokensFrom _ 0]
  rfl

/-! ### Places -/

/-- Where the search for words stands. -/
inductive WordPlace where
  /-- Outside of words and comments. -/
  | between
  | comment
  /-- Inside a word, read in the given mode and inside `depth` brackets of it. -/
  | word (m : Mode) (depth : Nat)
deriving DecidableEq

namespace WordPlace

/-- The place after a character that belongs to no word begun before it. -/
def afterGap (c : Char) (rest : List Char) : WordPlace :=
  if isAsciiSpace c then between
  else if startsComment c rest then comment
  else word (Mode.code.afterWord c) (groupDepth 0 c)

/-- The place after `c` with `rest` behind it. -/
def after (p : WordPlace) (c : Char) (rest : List Char) : WordPlace :=
  match p with
  | between => afterGap c rest
  | comment => if c = '\n' then between else comment
  | word m depth =>
    let read := m.reading c
    if endsWord read depth c rest then afterGap c rest
    else word (read.afterWord c) (if read = .code then groupDepth depth c else depth)

/-- The place after a text with `rest` behind it. -/
def run (p : WordPlace) : List Char → List Char → WordPlace
  | [], _ => p
  | c :: cs, rest => (p.after c (cs ++ rest)).run cs rest

/-- Two slashes begin a comment here. -/
def isOutside : WordPlace → Bool
  | between | word .code 0 => true
  | _ => false

/-- What is found from a place on: the rest of the word begun before it, and the tokens behind. -/
def resume : WordPlace → List Char → List Char × List Token
  | between, cs => ([], bareTokens cs)
  | comment, cs => ([], bareTokens (cs.dropWhile (· ≠ '\n')))
  | word m depth, cs => ((wordSpan m depth cs).1, bareTokens (wordSpan m depth cs).2)

/-- The tokens found in front of `c` outside of words, if `found` is what is found behind it. -/
def tokensAt (c : Char) (rest : List Char) (found : List Char × List Token) : List Token :=
  if c = '\n' then .newline .zero :: found.2
  else if isAsciiSpace c || startsComment c rest then found.2
  else .word ⟨c :: found.1, .zero⟩ :: found.2

/-- What is found in front of `c`, if `found` is what is found behind it. -/
def foundAt (p : WordPlace) (c : Char) (rest : List Char) (found : List Char × List Token) :
    List Char × List Token :=
  match p with
  | between => ([], tokensAt c rest found)
  | comment => if c = '\n' then ([], .newline .zero :: found.2) else found
  | word m depth =>
    if endsWord (m.reading c) depth c rest then ([], tokensAt c rest found)
    else (c :: found.1, found.2)

theorem bareTokens_cons (c : Char) (cs : List Char) :
    bareTokens (c :: cs) = tokensAt c cs ((afterGap c cs).resume cs) := by
  rw [tokensAt, afterGap]
  split
  · next hnl =>
    subst hnl
    exact bareTokens_newline cs
  · next hnl =>
    cases hspace : isAsciiSpace c with
    | true => exact bareTokens_blank hspace hnl cs
    | false =>
      cases hcomment : startsComment c cs with
      | true => exact bareTokens_of_startsComment hcomment
      | false => exact bareTokens_of_word hspace hcomment

/-- **What is found from a place on**, told by what is found one character later. -/
theorem resume_cons (p : WordPlace) (c : Char) (cs : List Char) :
    p.resume (c :: cs) = p.foundAt c cs ((p.after c cs).resume cs) := by
  cases p with
  | between => rw [resume, bareTokens_cons, foundAt, after]
  | comment =>
    rw [resume, foundAt, after]
    split
    · next hnl =>
      rw [List.dropWhile_cons_of_neg (by simp [hnl]), hnl, bareTokens_newline]
      rfl
    · next hnl =>
      rw [List.dropWhile_cons_of_pos (by simp [hnl])]
      rfl
  | word m depth =>
    rw [resume, foundAt, after, wordSpan]
    simp only
    split
    · exact congrArg (Prod.mk []) (bareTokens_cons c cs)
    · rfl

/-! ### Leaving a comment out -/

section

variable {c : Char} {cs ds : List Char}

theorem startsComment_eq_true_iff : startsComment c cs = true ↔ c = '/' ∧ cs.head? = some '/' := by
  rw [startsComment, Bool.and_eq_true, beq_iff_eq, beq_iff_eq]

theorem endsWord_congr (h : startsComment c cs = startsComment c ds) (m : Mode) (depth : Nat) :
    endsWord m depth c cs = endsWord m depth c ds := by
  rw [endsWord, endsWord, h]

theorem after_congr (h : startsComment c cs = startsComment c ds) (p : WordPlace) :
    p.after c cs = p.after c ds := by
  cases p <;> simp only [after, afterGap, endsWord_congr h, h]

theorem foundAt_congr (h : startsComment c cs = startsComment c ds) (p : WordPlace)
    (found : List Char × List Token) : p.foundAt c cs found = p.foundAt c ds found := by
  cases p <;> simp only [foundAt, tokensAt, endsWord_congr h, h]

/-- Where two slashes begin a comment, none has begun one character before. -/
theorem startsComment_of_isOutside_after {p : WordPlace} (h : (p.after c cs).isOutside = true) :
    startsComment c cs = false := by
  refine Bool.eq_false_iff.2 fun hstart => ?_
  obtain ⟨rfl, -⟩ := startsComment_eq_true_iff.1 hstart
  have hgap : (afterGap '/' cs).isOutside = false := by
    rw [afterGap, if_neg (by decide), if_pos hstart]
    rfl
  refine Bool.eq_false_iff.1 ?_ h
  cases p with
  | between => exact hgap
  | comment => rfl
  | word m depth =>
    have hread : m.reading '/' = m := by simp [Mode.reading]
    rw [after, hread]
    split
    · exact hgap
    · next hend =>
      -- inside of brackets, a slash leaves the depth as it is
      have hinside : m = .code → depth ≠ 0 := by
        rintro rfl rfl
        exact hend (by simp [endsWord, hstart])
      cases m with
      | code =>
        obtain ⟨n, rfl⟩ := Nat.exists_eq_succ_of_ne_zero (hinside rfl)
        rfl
      | string => rfl
      | escape => rfl
      | comment => rfl

end

end WordPlace

/-- A comment, up to its line break. -/
structure Comment where
  /-- What stands behind the two slashes. -/
  text : List Char
  newline_notMem : '\n' ∉ text

/-- The comment with its slashes. -/
def Comment.chars (k : Comment) : List Char := '/' :: '/' :: k.text

namespace WordPlace

variable (k : Comment) (rest : List Char)

theorem bareTokens_comment_append :
    bareTokens (k.chars ++ '\n' :: rest) = bareTokens ('\n' :: rest) := by
  have hdrop : ('/' :: k.text ++ '\n' :: rest).dropWhile (· ≠ '\n') = '\n' :: rest :=
    dropWhile_ne_append_cons (by simp [k.newline_notMem]) rest
  rw [Comment.chars, List.cons_append, bareTokens_of_startsComment rfl, hdrop]

/-- Where two slashes begin a comment, it can be left out. -/
theorem resume_comment {p : WordPlace} (h : p.isOutside = true) :
    p.resume (k.chars ++ '\n' :: rest) = p.resume ('\n' :: rest) := by
  have hbare := bareTokens_comment_append k rest
  cases p with
  | between => exact congrArg (Prod.mk []) hbare
  | comment => cases h
  | word m depth =>
    obtain ⟨rfl, rfl⟩ : m = .code ∧ depth = 0 := by
      cases m <;> cases depth <;> simp_all [isOutside]
    have hend : wordSpan .code 0 (k.chars ++ '\n' :: rest) = ([], k.chars ++ '\n' :: rest) := by
      rw [Comment.chars, List.cons_append, wordSpan]
      rfl
    rw [resume, resume, hend, wordSpan_of_isAsciiSpace (by decide)]
    exact congrArg (Prod.mk []) hbare

/-- **A comment changes nothing further in front.** -/
theorem resume_append_comment (cs : List Char) (p : WordPlace)
    (h : (p.run cs (k.chars ++ '\n' :: rest)).isOutside = true) :
    p.resume (cs ++ (k.chars ++ '\n' :: rest)) = p.resume (cs ++ '\n' :: rest) := by
  induction cs generalizing p with
  | nil => exact resume_comment k rest h
  | cons c cs ih =>
    rw [run] at h
    have hstart : startsComment c (cs ++ (k.chars ++ '\n' :: rest)) =
        startsComment c (cs ++ '\n' :: rest) := by
      cases cs with
      | nil =>
        have hnl : startsComment c ('\n' :: rest) = false := by simp [startsComment]
        exact (startsComment_of_isOutside_after h).trans hnl.symm
      | cons d ds => rfl
    rw [List.cons_append, List.cons_append, resume_cons, resume_cons, ih _ h, after_congr hstart,
      foundAt_congr hstart]

end WordPlace

/-- **A comment outside of brackets can be left out** up to its line break. -/
theorem bareTokens_comment (k : Comment) {cs rest : List Char}
    (h : (WordPlace.between.run cs (k.chars ++ '\n' :: rest)).isOutside = true) :
    bareTokens (cs ++ (k.chars ++ '\n' :: rest)) = bareTokens (cs ++ '\n' :: rest) :=
  congrArg Prod.snd (WordPlace.resume_append_comment k rest cs .between h)

end Sieve.Schema
