import Sieve.Schema.Block

/-!
# The search for blocks, step by step

The search for blocks goes through a text one character at a time, but for words outside of all
braces: such a word is passed as a whole, and with it the block that it begins, if it begins one.

## Main definitions

* `BeginsWord` — a word begins here, outside of all braces
* `Block.ofWord?` — the block that begins with a word

## Main results

* `blocksFrom_word`, `blocksFrom_char` — one step of the search
* `blocksFrom_induction` — what holds along the search
-/

namespace Sieve.Schema

open Sieve.Text

/-- A word begins with `c`, outside of all braces. -/
def BeginsWord (m : Mode) (depth : Nat) (afterIdent : Bool) (c : Char) : Prop :=
  m.reading c = .code ∧ depth = 0 ∧ isIdentStart c = true ∧ afterIdent = false

/-- The block that begins with the word `c :: cs` at byte `pos`, and what follows the block. -/
def Block.ofWord? (pos : Nat) (c : Char) (cs : List Char) : Option (Block × List Char) :=
  (BlockKind.ofKeyword? (String.ofList (c :: cs.takeWhile isIdentRest))).bind fun kind =>
    read? kind pos (cs.dropWhile isIdentRest)

/-- The blocks behind a word, given the block that begins with it, if there is one. -/
def blocksBehind (pos : Nat) (c : Char) (cs : List Char) :
    Option (Block × List Char) → List Block
  | none => blocksFrom .code 0 true (pos + byteLength (c :: cs.takeWhile isIdentRest))
      (cs.dropWhile isIdentRest)
  | some (b, after) => b :: blocksFrom .code 0 false b.span.stop after

variable {m : Mode} {depth : Nat} {afterIdent : Bool} {c : Char}

/-- **A word is passed as a whole**, with the block that it begins. -/
theorem blocksFrom_word (h : BeginsWord m depth afterIdent c) (pos : Nat) (cs : List Char) :
    blocksFrom m depth afterIdent pos (c :: cs) =
      blocksBehind pos c cs (Block.ofWord? pos c cs) := by
  obtain ⟨hread, rfl, hstart, rfl⟩ := h
  rw [blocksFrom, Block.ofWord?]
  simp only [hread, hstart, Bool.not_false, and_self, if_true]
  split
  · next hkind => rw [hkind, Option.bind_none, blocksBehind]
  · next kind hkind =>
    rw [hkind, Option.bind_some]
    split
    · next hnone => rw [hnone, blocksBehind]
    · next b after hsome => rw [hsome, blocksBehind]

/-- **Other characters are passed one by one.** -/
theorem blocksFrom_char (h : ¬ BeginsWord m depth afterIdent c) (pos : Nat) (cs : List Char) :
    blocksFrom m depth afterIdent pos (c :: cs) =
      blocksFrom ((m.reading c).afterCode c cs)
        (if m.reading c = .code then braceDepth depth c else depth)
        (m.reading c = .code && isIdentRest c) (pos + c.utf8Size) cs := by
  rw [blocksFrom]
  exact if_neg fun hc => h ⟨hc.1, hc.2.1, hc.2.2.1, by simpa using hc.2.2.2⟩

theorem Block.length_of_ofWord? {pos : Nat} {cs after : List Char} {b : Block}
    (h : ofWord? pos c cs = some (b, after)) : after.length < cs.length := by
  obtain ⟨kind, -, hread⟩ := Option.bind_eq_some_iff.1 h
  have hlt := length_of_read? hread
  have hle := (List.dropWhile_sublist (l := cs) isIdentRest).length_le
  omega

/-- **What holds along the search**: at the end of the text, and at each step if it holds where the
search goes on. -/
theorem blocksFrom_induction {motive : Mode → Nat → Bool → Nat → List Char → Prop}
    (nil : ∀ m depth afterIdent pos, motive m depth afterIdent pos [])
    (word : ∀ m depth afterIdent pos c cs, BeginsWord m depth afterIdent c →
      Block.ofWord? pos c cs = none →
      motive .code 0 true (pos + byteLength (c :: cs.takeWhile isIdentRest))
        (cs.dropWhile isIdentRest) → motive m depth afterIdent pos (c :: cs))
    (block : ∀ m depth afterIdent pos c cs b after, BeginsWord m depth afterIdent c →
      Block.ofWord? pos c cs = some (b, after) → motive .code 0 false b.span.stop after →
      motive m depth afterIdent pos (c :: cs))
    (char : ∀ m depth afterIdent pos c cs, ¬ BeginsWord m depth afterIdent c →
      motive ((m.reading c).afterCode c cs)
        (if m.reading c = .code then braceDepth depth c else depth)
        (m.reading c = .code && isIdentRest c) (pos + c.utf8Size) cs →
      motive m depth afterIdent pos (c :: cs))
    (m : Mode) (depth : Nat) (afterIdent : Bool) (pos : Nat) (cs : List Char) :
    motive m depth afterIdent pos cs := by
  induction hn : cs.length using Nat.strongRecOn generalizing m depth afterIdent pos cs with
  | ind n ih =>
    cases cs with
    | nil => exact nil m depth afterIdent pos
    | cons c cs =>
      rw [List.length_cons] at hn
      by_cases hbegin : BeginsWord m depth afterIdent c
      · cases hword : Block.ofWord? pos c cs with
        | none =>
          have hle := (List.dropWhile_sublist (l := cs) isIdentRest).length_le
          exact word m depth afterIdent pos c cs hbegin hword (ih _ (by omega) _ _ _ _ _ rfl)
        | some p =>
          have hlt := Block.length_of_ofWord? hword
          exact block m depth afterIdent pos c cs p.1 p.2 hbegin hword
            (ih _ (by omega) _ _ _ _ _ rfl)
      · exact char m depth afterIdent pos c cs hbegin (ih _ (by omega) _ _ _ _ _ rfl)

end Sieve.Schema
