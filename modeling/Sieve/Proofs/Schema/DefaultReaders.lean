import Mathlib
import Sieve.Proofs.Schema.FirstArgument
import Sieve.Schema.Default

/-!
# Two readers of defaults

The default of a field is told from the text of an argument: a pair of quotes makes a string, a
parenthesis a call, and what is left is a truth value, a number or a name. The grammar of attributes
reads the same argument as a value. Where the grammar accepts the whole attribute and the argument
has no label, the default is the value that the grammar reads, and calls and lists are no defaults.

## Main definitions

* `Default.ofValue?` — the default that the value of an argument is

## Main results

* `Default.ofText?_of_shows` — the default of a text is that of the value it shows
* `Default.ofWord?_eq_ofValue?` — the two readers agree
-/

namespace Sieve.Schema.Default

open Sieve.Text Sieve.Decimal Attribute

/-- The default that the value of an argument is; what the database makes up, and a list, is
none. -/
def ofValue? : Value → Option Default
  | .string s => some (string s)
  | .int i => some (int i)
  | .float x => some (float x)
  | .bool b => some (bool b)
  | .word name => some (literal name)
  | .call _ _ | .list _ => none

/-! ### Texts that are no strings -/

section

variable {c : Char} {cs : List Char}

theorem insideQuotes?_eq_none (h : cs.head? ≠ some '"') : insideQuotes? cs = none := by
  rw [insideQuotes?]
  rintro ds rfl
  exact h rfl

theorem isWhole_cons (hminus : c ≠ '-') : isWhole (c :: cs) = (c :: cs).all isAsciiDigit := by
  rw [isWhole]
  · rfl
  · rintro r ⟨⟩
    exact hminus rfl

theorem isWhole_of_not_isAsciiDigit (hdigit : isAsciiDigit c = false) (hminus : c ≠ '-') :
    isWhole (c :: cs) = false := by
  rw [isWhole_cons hminus, List.all_cons, hdigit, Bool.false_and]

theorem isFraction_of_not_isAsciiDigit (hdigit : isAsciiDigit c = false) (hminus : c ≠ '-')
    (hpoint : c ≠ '.') : isFraction (c :: cs) = false := by
  rw [isFraction, List.takeWhile_cons_of_pos (by simpa using hpoint),
    isWhole_of_not_isAsciiDigit hdigit hminus]
  rfl

end

/-! ### Numerals -/

theorem isWhole_text (n : Numeral) : isWhole n.text = decide (n.fraction = []) := by
  obtain ⟨c, cs, hwhole, hc⟩ := n.exists_head_whole
  have hminus : c ≠ '-' := ne_of_isAsciiDigit hc (by decide)
  have hall : (n.whole ++ n.fractionText).all isAsciiDigit = decide (n.fraction = []) := by
    rw [List.all_append, List.all_eq_true.2 n.isAsciiDigit_whole, Bool.true_and,
      Numeral.fractionText]
    split
    · next h => simp [h]
    · next h => simp [h, show isAsciiDigit '.' = false by decide]
  rw [← hall, Numeral.text, hwhole]
  cases n.negative with
  | true => rfl
  | false => exact isWhole_cons hminus

/-- A numeral with a fraction is its whole part, a point, and the fraction. -/
theorem isFraction_text {n : Numeral} (h : n.fraction ≠ []) : isFraction n.text = true := by
  let w : Numeral := { n with fraction := [], isAsciiDigit_fraction := by simp }
  have htext : n.text = w.text ++ '.' :: n.fraction := by
    simp [Numeral.text, Numeral.fractionText, h, w]
  have hpoint : '.' ∉ w.text := by
    have hdigits : '.' ∉ n.whole := fun hmem => absurd (n.isAsciiDigit_whole _ hmem) (by decide)
    cases hneg : n.negative <;> simp [Numeral.text, Numeral.fractionText, w, hneg, hdigits]
  have htake : n.text.takeWhile (· ≠ '.') = w.text := by
    rw [htext, takeWhile_ne_append_cons hpoint]
  have hdrop : n.text.dropWhile (· ≠ '.') = '.' :: n.fraction := by
    rw [htext, dropWhile_ne_append_cons hpoint]
  rw [isFraction]
  simp only [htake, hdrop, isWhole_text w]
  simpa [h, w] using n.isAsciiDigit_fraction

/-! ### The default of what is shown -/

theorem ofText?_numeral (n : Numeral) {s : String} (h : trimChars s.toList = n.text) :
    ofText? s = ofValue? (numberValue n.text) := by
  obtain ⟨x, hx⟩ := n.exists_float?_text
  have hquotes : insideQuotes? n.text = none := insideQuotes?_eq_none fun hhead =>
    n.notMem_text (by decide) (by decide) (by decide) (List.mem_of_mem_head? hhead)
  have hparen : '(' ∉ n.text := n.notMem_text (by decide) (by decide) (by decide)
  have htrue : n.text ≠ "true".toList := fun heq =>
    n.notMem_text (c := 't') (by decide) (by decide) (by decide) (by rw [heq]; decide)
  have hfalse : n.text ≠ "false".toList := fun heq =>
    n.notMem_text (c := 'f') (by decide) (by decide) (by decide) (by rw [heq]; decide)
  rw [ofText?]
  simp only [h, hquotes, if_neg hparen, if_neg htrue, if_neg hfalse, isWhole_text, hx]
  by_cases hfraction : n.fraction = []
  · rw [if_pos (by simpa using hfraction), numberValue]
    cases Decimal.int? n.text with
    | some i => rfl
    | none => simp [hx, ofValue?]
  · have hint : Decimal.int? n.text = none := by rw [n.int?_text, if_neg hfraction]
    rw [if_neg (by simpa using hfraction), if_pos (isFraction_text hfraction), numberValue, hint]
    simp [hx, ofValue?]

theorem ofText?_word {name : List Char} (hname : isIdent name = true) {s : String}
    (h : trimChars s.toList = name) : ofText? s = ofValue? (wordValue (String.ofList name)) := by
  obtain ⟨c, cs, heq, hc, -⟩ := exists_head_of_isIdent hname
  have hparen : '(' ∉ name := fun hmem =>
    absurd (isIdentRest_of_isIdent hname _ hmem) (by decide)
  have hquotes : insideQuotes? name = none := insideQuotes?_eq_none fun hhead =>
    absurd (isIdentRest_of_isIdent hname _ (List.mem_of_mem_head? hhead)) (by decide)
  have hwhole : isWhole name = false := by
    rw [heq]
    exact isWhole_of_not_isAsciiDigit (isAsciiDigit_of_isIdentStart hc)
      (ne_of_isIdentStart hc (by decide))
  have hfraction : isFraction name = false := by
    rw [heq]
    exact isFraction_of_not_isAsciiDigit (isAsciiDigit_of_isIdentStart hc)
      (ne_of_isIdentStart hc (by decide)) (ne_of_isIdentStart hc (by decide))
  have hlist : ∀ t : String, String.ofList name = t ↔ name = t.toList := fun t => by
    rw [← String.toList_inj, String.toList_ofList]
  rw [ofText?, wordValue]
  simp only [h, hquotes, if_neg hparen, hwhole, hfraction, hname, hlist]
  split
  · rfl
  · split <;> rfl

/-- **The default of a text is that of the value it shows.** -/
theorem ofText?_of_shows {v : Value} {s : String} (h : Shows v s.toList) :
    ofText? s = ofValue? v := by
  have htrim : Shows v (trimChars ([] ++ (s.toList ++ []))) := h.trimChars (by simp) (by simp)
  rw [List.nil_append, List.append_nil] at htrim
  generalize hcs : trimChars s.toList = cs at htrim
  cases htrim with
  | literal hspelled =>
    cases hspelled with
    | @string inside hinside =>
      have hquotes : insideQuotes? ('"' :: (inside ++ ['"'])) = some inside := by
        rw [insideQuotes?, if_pos List.getLast?_concat, List.dropLast_concat]
      rw [ofText?]
      simp only [hcs, hquotes]
      rfl
    | number n => exact ofText?_numeral n hcs
  | word hname => exact ofText?_word hname hcs
  | @call name args c cs hc hparen =>
    have hquotes : insideQuotes? (c :: cs) = none :=
      insideQuotes?_eq_none fun hhead => ne_of_isIdentStart hc (by decide) (Option.some.inj hhead)
    rw [ofText?]
    simp only [hcs, hquotes, if_pos (List.mem_cons_of_mem c hparen)]
    rfl
  | @list items cs =>
    have hquotes : insideQuotes? ('[' :: cs) = none := insideQuotes?_eq_none (by simp)
    have hwhole : isWhole ('[' :: cs) = false :=
      isWhole_of_not_isAsciiDigit (by decide) (by decide)
    have hfraction : isFraction ('[' :: cs) = false :=
      isFraction_of_not_isAsciiDigit (by decide) (by decide) (by decide)
    have hident : isIdent ('[' :: cs) = false := rfl
    have hword : '[' :: cs ≠ "true".toList ∧ '[' :: cs ≠ "false".toList := by
      constructor <;> simp
    rw [ofText?]
    simp only [hcs, hquotes, hwhole, hfraction, hident, if_neg hword.1, if_neg hword.2]
    simp [ofValue?]

/-- **The two readers agree**: the default of an attribute word is the value of its first argument,
if the word spells an attribute and the argument has no label. -/
theorem ofWord?_eq_ofValue? {word : String} {a : Attribute} {v : Value} {args : List Arg}
    (h : parse? word = some a) (hargs : a.args = ⟨none, v⟩ :: args) :
    ofWord? word = ofValue? v := by
  obtain ⟨text, htext, hshows⟩ := exists_firstArgument? h hargs
  rw [ofWord?, htext, Option.bind_some, ofText?_of_shows hshows]

/-- Brackets, commas and quotes in a string literal neither end the argument nor make it a call. -/
theorem ofWord?_eq_ofValue?_quoted :
    let word := "@default( \"now(), [\\\"\" , map : [f(\"x\")], )"
    let a : Attribute := ⟨"default", [⟨none, .string "now(), [\""⟩,
      ⟨some "map", .list [.call "f" [.string "x"]]⟩]⟩
    parse? word = some a ∧ ofWord? word = some (string "now(), [\"") := by
  intro word a
  have hparse : parse? word = some a := by cbv
  exact ⟨hparse, ofWord?_eq_ofValue? hparse rfl⟩

end Sieve.Schema.Default
