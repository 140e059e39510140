/-!
# Parsing expressions

A grammar whose rules are tried in order and take as much as they can. What an expression makes of
a text is told by a relation: it matches a stretch at the front, and gives the named matches in it
with what is left over, or it fails. A repetition goes on until what it repeats fails, so one that
repeats something for ever has no outcome at all, and neither has an expression that depends on it.
That an expression has an outcome on a text thus says that matching it comes to an end.

No expression has two outcomes on a text.

## Main definitions

* `Match` — a stretch that a named rule has matched, with the matches inside
* `ParsingExpr` — expressions
* `ParsingExpr.Gives` — the outcome of an expression on a text

## Main results

* `ParsingExpr.Gives.unique` — there is at most one outcome
-/

namespace Sieve.Text

/-- A stretch of text that a rule has matched, and the matches of rules inside, in order. -/
structure Match (ρ : Type) where
  rule : ρ
  text : List Char
  inner : List (Match ρ)

/-- A parsing expression over rules named in `ρ`. -/
inductive ParsingExpr (ρ : Type) where
  /-- Just this text. -/
  | text (cs : List Char)
  /-- Any one character. -/
  | any
  /-- The beginning of the whole text. -/
  | start
  /-- The end of the whole text. -/
  | finish
  /-- One expression and then the other. -/
  | seq (e f : ParsingExpr ρ)
  /-- The first expression, or if that fails, the second. -/
  | choice (e f : ParsingExpr ρ)
  /-- An expression as often as it matches. -/
  | many (e : ParsingExpr ρ)
  /-- Nothing, where an expression fails. -/
  | absent (e : ParsingExpr ρ)
  /-- What an expression matches, as a match of its own. -/
  | named (rule : ρ) (e : ParsingExpr ρ)

namespace ParsingExpr

variable {ρ : Type}

/-- An expression once at least, and then as often as it matches. -/
def many1 (e : ParsingExpr ρ) : ParsingExpr ρ := .seq e (.many e)

/-- What an expression makes of the rest of the text `whole`: either it fails, or it gives matches
and what is left over behind them. -/
inductive Gives (whole : List Char) :
    ParsingExpr ρ → List Char → Option (List (Match ρ) × List Char) → Prop where
  | text {cs s t} : s = cs ++ t → Gives whole (.text cs) s (some ([], t))
  | text_fails {cs s} : ¬ cs <+: s → Gives whole (.text cs) s none
  | any {c s} : Gives whole .any (c :: s) (some ([], s))
  | any_fails : Gives whole .any [] none
  | start : Gives whole .start whole (some ([], whole))
  | start_fails {s} : s ≠ whole → Gives whole .start s none
  | finish : Gives whole .finish [] (some ([], []))
  | finish_fails {c s} : Gives whole .finish (c :: s) none
  | seq {e f s t u ms ns} : Gives whole e s (some (ms, t)) → Gives whole f t (some (ns, u)) →
      Gives whole (.seq e f) s (some (ms ++ ns, u))
  | seq_fails {e f s} : Gives whole e s none → Gives whole (.seq e f) s none
  | seq_fails_later {e f s t ms} : Gives whole e s (some (ms, t)) → Gives whole f t none →
      Gives whole (.seq e f) s none
  | choice {e f s r} : Gives whole e s (some r) → Gives whole (.choice e f) s (some r)
  | choice_second {e f s r} : Gives whole e s none → Gives whole f s r →
      Gives whole (.choice e f) s r
  | many {e s t u ms ns} : Gives whole e s (some (ms, t)) →
      Gives whole (.many e) t (some (ns, u)) → Gives whole (.many e) s (some (ms ++ ns, u))
  | many_stops {e s} : Gives whole e s none → Gives whole (.many e) s (some ([], s))
  | absent {e s} : Gives whole e s none → Gives whole (.absent e) s (some ([], s))
  | absent_fails {e s r} : Gives whole e s (some r) → Gives whole (.absent e) s none
  | named {e rule s cs t ms} : s = cs ++ t → Gives whole e s (some (ms, t)) →
      Gives whole (.named rule e) s (some ([⟨rule, cs, ms⟩], t))
  | named_fails {e rule s} : Gives whole e s none → Gives whole (.named rule e) s none

/-- **There is at most one outcome.** -/
theorem Gives.unique {whole : List Char} {e : ParsingExpr ρ} {s : List Char}
    {r r' : Option (List (Match ρ) × List Char)} (h : Gives whole e s r)
    (h' : Gives whole e s r') : r = r' := by
  induction h generalizing r' with
  | text hs =>
    cases h' with
    | text hs' => rw [List.append_cancel_left (hs.symm.trans hs')]
    | text_fails hprefix => exact absurd (hs ▸ List.prefix_append _ _) hprefix
  | text_fails hprefix =>
    cases h' with
    | text hs' => exact absurd (hs' ▸ List.prefix_append _ _) hprefix
    | text_fails _ => rfl
  | any => cases h'; rfl
  | any_fails => cases h'; rfl
  | start =>
    cases h' with
    | start => rfl
    | start_fails hne => exact absurd rfl hne
  | start_fails hne =>
    cases h' with
    | start => exact absurd rfl hne
    | start_fails _ => rfl
  | finish => cases h'; rfl
  | finish_fails => cases h'; rfl
  | seq _ _ ihe ihf =>
    cases h' with
    | seq he hf =>
      obtain ⟨rfl, rfl⟩ : _ ∧ _ := by simpa using ihe he
      obtain ⟨rfl, rfl⟩ : _ ∧ _ := by simpa using ihf hf
      rfl
    | seq_fails he => cases ihe he
    | seq_fails_later he hf =>
      obtain ⟨rfl, rfl⟩ : _ ∧ _ := by simpa using ihe he
      cases ihf hf
  | seq_fails _ ihe =>
    cases h' with
    | seq he _ => cases ihe he
    | seq_fails _ => rfl
    | seq_fails_later _ _ => rfl
  | seq_fails_later _ _ ihe ihf =>
    cases h' with
    | seq he hf =>
      obtain ⟨rfl, rfl⟩ : _ ∧ _ := by simpa using ihe he
      cases ihf hf
    | seq_fails _ => rfl
    | seq_fails_later _ _ => rfl
  | choice _ ihe =>
    cases h' with
    | choice he => exact ihe he
    | choice_second he _ => cases ihe he
  | choice_second _ _ ihe ihf =>
    cases h' with
    | choice he => cases ihe he
    | choice_second _ hf => exact ihf hf
  | many _ _ ihe ihmany =>
    cases h' with
    | many he hmany =>
      obtain ⟨rfl, rfl⟩ : _ ∧ _ := by simpa using ihe he
      obtain ⟨rfl, rfl⟩ : _ ∧ _ := by simpa using ihmany hmany
      rfl
    | many_stops he => cases ihe he
  | many_stops _ ihe =>
    cases h' with
    | many he _ => cases ihe he
    | many_stops _ => rfl
  | absent _ ihe =>
    cases h' with
    | absent _ => rfl
    | absent_fails he => cases ihe he
  | absent_fails _ ihe =>
    cases h' with
    | absent he => cases ihe he
    | absent_fails _ => rfl
  | named hs _ ihe =>
    cases h' with
    | named hs' he =>
      obtain ⟨rfl, rfl⟩ : _ ∧ _ := by simpa using ihe he
      rw [List.append_cancel_right (hs.symm.trans hs')]
    | named_fails he => cases ihe he
  | named_fails _ ihe =>
    cases h' with
    | named _ he => cases ihe he
    | named_fails _ => rfl

end ParsingExpr

end Sieve.Text
