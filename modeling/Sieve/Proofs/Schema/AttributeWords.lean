import Mathlib.Tactic.SplitIfs
import Sieve.Proofs.Schema.AttributeSteps
import Sieve.Proofs.Schema.Words
import Sieve.Schema.Attribute.Raw

/-!
# Attribute words

An attribute is read twice: the scanners cut its word out of a body, counting brackets and watching
for string literals, and the attribute grammar reads tokens and keeps a stack of open brackets. The
two agree on how deep a text is nested. So a word that the grammar accepts is one word for the
scanners too, as long as no line break stands in a string literal; only the scanners end a literal
there.

## Main definitions

* `keepsLines` — no line break stands in a string literal
* `Attribute.State.depth` — how many brackets are open
* `Attribute.IsWord` — a word that spells an attribute, with no blank outside of its brackets

## Main results

* `Attribute.depth_step` — a token changes the stack as its brackets change the depth
* `Attribute.walk_of_tokens` — what the grammar reads is walked over
* `Attribute.IsWord.walk` — an attribute word is walked over
-/

namespace Sieve.Schema

open Sieve.Text

/-- No line break stands in a string literal of the text. -/
def keepsLines (m : Mode) : List Char → Bool
  | [] => true
  | c :: cs => (m == .code || c != '\n') && keepsLines (m.afterWord c) cs

namespace Attribute

theorem keepsLines_quiet {cs : List Char} (h : ∀ c ∈ cs, isQuiet c = true) (rest : List Char) :
    keepsLines .code (cs ++ rest) = keepsLines .code rest := by
  induction cs with
  | nil => rfl
  | cons c cs ih =>
    obtain ⟨hc, hcs⟩ := List.forall_mem_cons.1 h
    have hquote : c ≠ '"' := by
      rintro rfl
      exact absurd hc (by decide)
    rw [List.cons_append, keepsLines, Mode.afterWord, if_neg hquote, ih hcs]
    rfl

/-! ### Tokens -/

/-- How many brackets are open after one more token. -/
def Token.depthAfter (depth : Nat) : Token → Nat
  | openParen | openBracket => depth + 1
  | closeParen | closeBracket => depth - 1
  | _ => depth

/-- A string literal without line breaks is passed over in its mode. -/
theorem walk_literal {cs inside rest : List Char} (h : literalSpan? cs = some (inside, rest))
    (hlines : keepsLines .string cs = true) (depth : Nat) :
    walk .string depth cs = walk .code depth rest ∧ keepsLines .code rest = true ∧ rest <:+ cs := by
  induction cs using literalSpan?.induct generalizing inside with
  | case1 => simp [literalSpan?] at h
  | case2 cs =>
    obtain ⟨-, rfl⟩ : [] = inside ∧ cs = rest := by simpa [literalSpan?] using h
    rw [keepsLines, Bool.and_eq_true] at hlines
    exact ⟨walk_cons (by rfl) _, hlines.2, List.suffix_cons _ _⟩
  | case3 c cs ih =>
    rw [literalSpan?, Option.map_eq_some_iff] at h
    obtain ⟨⟨inside', rest'⟩, hspan, heq⟩ := h
    cases heq
    rw [keepsLines, keepsLines, Bool.and_eq_true, Bool.and_eq_true] at hlines
    obtain ⟨-, hc, hcs⟩ := hlines
    have hescape : Mode.string.afterWord '\\' = .escape := rfl
    have halert : alerts .escape depth c = false := by simpa [alerts, hescape] using hc
    have hback : alerts .string depth '\\' = false := rfl
    obtain ⟨hwalk, hrest, hsuffix⟩ := ih hspan hcs
    refine ⟨?_, hrest, (hsuffix.trans (List.suffix_cons _ _)).trans (List.suffix_cons _ _)⟩
    rw [walk_cons hback, ← hwalk]
    exact walk_cons halert cs
  | case4 c cs hquote hback ih =>
    rw [literalSpan?.eq_4 _ _ hquote hback, Option.map_eq_some_iff] at h
    obtain ⟨⟨inside', rest'⟩, hspan, heq⟩ := h
    cases heq
    have hne : c ≠ '\\' := by
      rintro rfl
      cases cs with
      | nil => simp [literalSpan?] at hspan
      | cons d ds => exact hback d ds rfl rfl
    have hafter : Mode.string.afterWord c = .string := by
      rw [Mode.afterWord, if_neg hne, if_neg hquote]
    rw [keepsLines, hafter, Bool.and_eq_true] at hlines
    have halert : alerts .string depth c = false := by simpa [alerts] using hlines.1
    obtain ⟨hwalk, hrest, hsuffix⟩ := ih hspan hlines.2
    refine ⟨?_, hrest, hsuffix.trans (List.suffix_cons _ _)⟩
    rw [walk_cons halert, hafter, ← hwalk]
    rfl

theorem digitSpan_append (cs : List Char) : (digitSpan cs).1 ++ (digitSpan cs).2 = cs := by
  rw [digitSpan]
  split
  · next d r hr =>
    split
    · rw [List.append_assoc, List.cons_append, List.cons_append, List.takeWhile_append_dropWhile,
        ← hr, List.takeWhile_append_dropWhile]
    · rw [List.takeWhile_append_dropWhile]
  · rw [List.takeWhile_append_dropWhile]

theorem isQuiet_of_isAsciiDigit {c : Char} (h : isAsciiDigit c = true) : isQuiet c = true :=
  isQuiet_of_isIdentRest (isIdentRest_of_isAsciiDigit h)

theorem isQuiet_of_mem_digitSpan {cs : List Char} {c : Char} (h : c ∈ (digitSpan cs).1) :
    isQuiet c = true := by
  have hdigits : ∀ {xs : List Char}, c ∈ xs.takeWhile isAsciiDigit → isQuiet c = true :=
    fun hc => isQuiet_of_isAsciiDigit (List.all_eq_true.1 List.all_takeWhile c hc)
  rw [digitSpan] at h
  split at h
  · next d r hr =>
    split at h
    · next hd =>
      rcases List.mem_append.1 h with h | h
      · exact hdigits h
      · rcases List.mem_cons.1 h with rfl | h
        · decide
        · rcases List.mem_cons.1 h with rfl | h
          · exact isQuiet_of_isAsciiDigit hd
          · exact hdigits h
    · exact hdigits h
  · exact hdigits h

/-- A run of quiet characters is passed over. -/
theorem walk_of_isQuiet {c : Char} {cs xs ys : List Char} (happend : xs ++ ys = cs)
    (hquiet : ∀ x ∈ c :: xs, isQuiet x = true) (hlines : keepsLines .code (c :: cs) = true)
    (depth : Nat) : walk .code depth (c :: cs) = walk .code depth ys ∧
      keepsLines .code ys = true ∧ ys <:+ cs := by
  subst happend
  refine ⟨walk_quiet hquiet depth ys, ?_, List.suffix_append xs ys⟩
  rwa [← List.cons_append, keepsLines_quiet hquiet] at hlines

/-- A mark is passed over, and changes the depth as a bracket does. -/
theorem walk_of_mark {c : Char} {cs : List Char} (hquote : c ≠ '"')
    (halert : alerts .code 0 c = false) (hlines : keepsLines .code (c :: cs) = true) (depth : Nat) :
    walk .code depth (c :: cs) = walk .code (groupDepth depth c) cs ∧
      keepsLines .code cs = true ∧ cs <:+ cs := by
  have hcode : Mode.code.afterWord c = .code := by rw [Mode.afterWord, if_neg hquote]
  rw [keepsLines, hcode, Bool.and_eq_true] at hlines
  rw [walk_cons (alerts_of_zero halert depth), hcode, if_pos rfl]
  exact ⟨rfl, hlines.2, List.suffix_rfl⟩

theorem isQuiet_of_startsNumber {c : Char} {cs : List Char} (h : startsNumber c cs = true) :
    isQuiet c = true := by
  rw [startsNumber, Bool.or_eq_true, Bool.and_eq_true] at h
  rcases h with hdigit | ⟨hminus, -⟩
  · exact isQuiet_of_isAsciiDigit hdigit
  · obtain rfl : c = '-' := by simpa using hminus
    decide

/-- What one token spells is passed over, and changes the depth as the token does. -/
theorem walk_of_next? {c : Char} {cs : List Char} {t : Token} {rest : Rest cs}
    (h : next? c cs = some (t, rest)) (hlines : keepsLines .code (c :: cs) = true) (depth : Nat) :
    walk .code depth (c :: cs) = walk .code (t.depthAfter depth) rest.1 ∧
      keepsLines .code rest.1 = true ∧ rest.1 <:+ cs := by
  rw [next?] at h
  split_ifs at h with h₁ h₂ h₃ h₄ h₅ h₆ hquote hnumber hident
  · obtain rfl : c = '(' := by simpa using h₁
    cases h
    exact walk_of_mark (by decide) (by decide) hlines depth
  · obtain rfl : c = ')' := by simpa using h₂
    cases h
    exact walk_of_mark (by decide) (by decide) hlines depth
  · obtain rfl : c = '[' := by simpa using h₃
    cases h
    exact walk_of_mark (by decide) (by decide) hlines depth
  · obtain rfl : c = ']' := by simpa using h₄
    cases h
    exact walk_of_mark (by decide) (by decide) hlines depth
  · obtain rfl : c = ',' := by simpa using h₅
    cases h
    exact walk_of_mark (by decide) (by decide) hlines depth
  · obtain rfl : c = ':' := by simpa using h₆
    cases h
    exact walk_of_mark (by decide) (by decide) hlines depth
  · obtain rfl : c = '"' := by simpa using hquote
    split at h
    · cases h
    · next inside after hspan =>
      cases h
      have hstring : keepsLines .string cs = true := hlines
      obtain ⟨hwalk, hrest, hsuffix⟩ := walk_literal hspan hstring depth
      refine ⟨?_, hrest, hsuffix⟩
      rw [walk_cons (alerts_of_zero (by decide) depth)]
      exact hwalk
  · cases h
    have hquiet : ∀ x ∈ c :: (digitSpan cs).1, isQuiet x = true :=
      List.forall_mem_cons.2 ⟨isQuiet_of_startsNumber hnumber, fun x => isQuiet_of_mem_digitSpan⟩
    exact walk_of_isQuiet (digitSpan_append cs) hquiet hlines depth
  · cases h
    have hquiet : ∀ x ∈ c :: cs.takeWhile isIdentRest, isQuiet x = true :=
      List.forall_mem_cons.2 ⟨isQuiet_of_isIdentRest (isIdentRest_of_isIdentStart hident),
        fun x hx => isQuiet_of_isIdentRest (List.all_eq_true.1 List.all_takeWhile x hx)⟩
    exact walk_of_isQuiet List.takeWhile_append_dropWhile hquiet hlines depth

theorem tokens?_openParen (cs : List Char) :
    tokens? ('(' :: cs) = (tokens? cs).map (Token.openParen :: ·) := by
  rw [tokens?]
  rfl

theorem tokens?_closeParen (cs : List Char) :
    tokens? (')' :: cs) = (tokens? cs).map (Token.closeParen :: ·) := by
  rw [tokens?]
  rfl

theorem tokens?_quote {cs inside rest : List Char}
    (h : literalSpan? cs = some (inside, rest)) :
    tokens? ('"' :: cs) = (tokens? rest).map
      (Token.literal (.string (String.ofList (unescape inside))) :: ·) := by
  have hnext : ∃ r : Rest cs, r.1 = rest ∧ next? '"' cs =
      some (.literal (.string (String.ofList (unescape inside))), r) := by
    rw [next?, if_neg (by decide), if_neg (by decide), if_neg (by decide),
      if_neg (by decide), if_neg (by decide), if_neg (by decide), if_pos (by decide)]
    split
    · next hspan =>
      rw [h] at hspan
      cases hspan
    · next inside' rest' hspan =>
      rw [h] at hspan
      cases hspan
      exact ⟨_, rfl, rfl⟩
  obtain ⟨r, rfl, hnext⟩ := hnext
  rw [tokens?, if_neg (by decide), hnext]

/-! ### Depth -/

/-- How many brackets are open. -/
def State.depth : State → Nat
  | inside outer _ _ => outer.length + 1
  | finished _ => 0

theorem depth_of_closeFrame {outer : List (Frame × Option String)} {frame : Frame} {s : State}
    (h : closeFrame outer frame = some s) : s.depth = outer.length := by
  cases outer with
  | nil =>
    cases frame with
    | arguments done =>
      obtain rfl : _ = s := by simpa [closeFrame] using h
      rfl
    | call name done => simp [closeFrame] at h
    | list done => simp [closeFrame] at h
  | cons p outer =>
    cases frame with
    | arguments done => simp [closeFrame] at h
    | call name done =>
      obtain rfl : _ = s := by simpa [closeFrame] using h
      rfl
    | list done =>
      obtain rfl : _ = s := by simpa [closeFrame] using h
      rfl

theorem depthAfter_of_closedBy {frame : Frame} {t : Token} (h : frame.closedBy t = true)
    (depth : Nat) : t.depthAfter (depth + 1) = depth := by
  unfold Frame.closedBy at h
  split at h
  · rfl
  · rfl
  · rfl
  · cases h

variable {outer : List (Frame × Option String)} {frame : Frame} {label : Option String} {t : Token}
  {s s' : State}

theorem depth_of_beginItem (h : beginItem outer frame label t = some s) :
    s.depth = t.depthAfter (outer.length + 1) := by
  cases t <;> simp only [beginItem, Option.some.injEq, reduceCtorEq] at h <;> subst h <;> rfl

theorem depth_of_move {place : Place} (h : Move outer frame place t s) :
    s.depth = t.depthAfter (outer.length + 1) := by
  induction h with
  | begins _ hs => exact depth_of_beginItem hs
  | closes _ hclosed hs => rw [depth_of_closeFrame hs, depthAfter_of_closedBy hclosed]
  | word _ ih => exact ih
  | _ => rfl

/-- **A token changes the stack of open brackets as its brackets change the depth.** -/
theorem depth_step (h : s.step t = some s') : s'.depth = t.depthAfter s.depth := by
  cases s with
  | finished args => simp [State.step] at h
  | inside outer frame place => exact depth_of_move (move_of_step h)

/-! ### Texts -/

theorem isGap_of_tokens?_eq_nil {cs : List Char} (h : tokens? cs = some []) :
    ∀ c ∈ cs, isGap c = true := by
  induction cs with
  | nil => simp
  | cons c cs ih =>
    rw [tokens?] at h
    split at h
    · next hgap => exact List.forall_mem_cons.2 ⟨hgap, ih h⟩
    · split at h
      · cases h
      · simp at h

theorem walk_of_isGap {c : Char} (h : isGap c = true) {depth : Nat} (hdepth : depth ≠ 0)
    (cs : List Char) : walk .code depth (c :: cs) = walk .code depth cs := by
  simp only [isGap, Bool.or_eq_true, beq_iff_eq] at h
  have halert : alerts .code depth c = false := by
    rcases h with ((rfl | rfl) | rfl) | rfl <;> simp [alerts, hdepth]
  rw [walk_cons halert]
  rcases h with ((rfl | rfl) | rfl) | rfl <;> rfl

theorem keepsLines_of_isGap {c : Char} (h : isGap c = true) (cs : List Char) :
    keepsLines .code (c :: cs) = keepsLines .code cs := by
  simp only [isGap, Bool.or_eq_true, beq_iff_eq] at h
  rcases h with ((rfl | rfl) | rfl) | rfl <;> rfl

/-- **What the grammar reads is walked over**: from a state on, the depth of the text follows the
stack. A text behind the last closing bracket must not end in blanks. -/
theorem walk_of_tokens {cs : List Char} {ts : List Token} (hts : tokens? cs = some ts)
    (hrun : ts.foldlM State.step s = some s') (hlines : keepsLines .code cs = true)
    (hend : ∀ c ∈ cs.getLast?, isGap c = false) :
    walk .code s.depth cs = some (.code, s'.depth) := by
  induction cs using tokens?.induct generalizing ts s with
  | case1 =>
    rw [tokens?] at hts
    cases hts
    cases hrun
    rfl
  | case2 c cs hgap ih =>
    rw [tokens?, if_pos hgap] at hts
    rw [keepsLines_of_isGap hgap] at hlines
    have hne : ts ≠ [] := by
      rintro rfl
      -- a text of blanks alone ends in one
      have hall : ∀ d ∈ c :: cs, isGap d = true :=
        List.forall_mem_cons.2 ⟨hgap, isGap_of_tokens?_eq_nil hts⟩
      have hlast := List.getLast?_eq_some_getLast (List.cons_ne_nil c cs)
      have hmem := hall _ (List.getLast_mem (List.cons_ne_nil c cs))
      rw [hend _ hlast] at hmem
      cases hmem
    have hdepth : s.depth ≠ 0 := by
      cases s with
      | inside outer frame place => exact Nat.succ_ne_zero _
      | finished args =>
        obtain ⟨t, ts, rfl⟩ := List.exists_cons_of_ne_nil hne
        simp [State.step] at hrun
    rw [walk_of_isGap hgap hdepth]
    refine ih hts hrun hlines fun d hd => hend d ?_
    rw [List.getLast?_cons, Option.mem_def.1 hd]
    rfl
  | case3 c cs hgap hnext =>
    rw [tokens?, if_neg hgap, hnext] at hts
    cases hts
  | case4 c cs hgap t rest hnext ih =>
    rw [tokens?, if_neg hgap, hnext] at hts
    obtain ⟨ts', hts', rfl⟩ := Option.map_eq_some_iff.1 hts
    rw [List.foldlM_cons] at hrun
    obtain ⟨s₁, hstep, hrun⟩ := Option.bind_eq_some_iff.1 hrun
    obtain ⟨hwalk, hrest, pre, hsuffix⟩ := walk_of_next? hnext hlines s.depth
    rw [hwalk, ← depth_step hstep]
    refine ih hts' hrun hrest fun d hd => hend d ?_
    rw [← hsuffix, List.getLast?_cons, List.getLast?_append, Option.mem_def.1 hd]
    rfl

/-! ### Words -/

/-- The word spells an attribute: `@`, a name, and perhaps arguments in parentheses, with no blank
outside of them. -/
def IsWord (w : List Char) : Prop :=
  ∃ name behind, w = '@' :: (name ++ behind) ∧ dottedName? (name ++ behind) = some (name, behind) ∧
    (behind = [] ∨ ∃ inside, behind = '(' :: (inside ++ [')'])) ∧
    (parse? (String.ofList w)).isSome = true

theorem isNameChar_of_isIdentRest {c : Char} (h : isIdentRest c = true) : isNameChar c = true := by
  rw [isNameChar, h, Bool.true_or]

theorem isQuiet_of_isNameChar {c : Char} (h : isNameChar c = true) : isQuiet c = true := by
  rw [isNameChar, Bool.or_eq_true] at h
  rcases h with h | h
  · exact isQuiet_of_isIdentRest h
  · obtain rfl : c = '.' := by simpa using h
    decide

theorem isNameChar_of_mem_more (cs : List Char) :
    ∀ c ∈ (dottedName?.more cs).1, isNameChar c = true := by
  induction cs using dottedName?.more.induct with
  | case1 => simp [dottedName?.more]
  | case2 c hc => simpa [dottedName?.more, hc] using isNameChar_of_isIdentRest hc
  | case3 c hc => simp [dottedName?.more, hc]
  | case4 c d cs hc ih =>
    rw [dottedName?.more, if_pos hc]
    refine List.forall_mem_cons.2 ⟨?_, ih⟩
    rw [Bool.or_eq_true, Bool.and_eq_true] at hc
    rw [isNameChar, Bool.or_eq_true]
    exact hc.imp_right And.left
  | case5 c d cs hc => simp [dottedName?.more, hc]

theorem exists_head_of_dottedName? {cs name behind : List Char}
    (h : dottedName? cs = some (name, behind)) :
    ∃ c rest, name = c :: rest ∧ isIdentStart c = true ∧ ∀ d ∈ rest, isNameChar d = true := by
  rw [dottedName?.eq_def] at h
  split at h
  · cases h
  · next c rest =>
    split at h
    · next hc =>
      cases h
      exact ⟨c, _, rfl, hc, isNameChar_of_mem_more rest⟩
    · cases h

theorem isGap_of_isIdentRest {c : Char} (h : isIdentRest c = true) : isGap c = false := by
  have hne : ∀ d ∈ [' ', '\t', '\r', '\n'], c ≠ d := forall_ne_of_isIdentRest h (by decide)
  simpa [isGap, and_assoc] using hne

theorem isGap_of_isIdentStart {c : Char} (h : isIdentStart c = true) : isGap c = false :=
  isGap_of_isIdentRest (isIdentRest_of_isIdentStart h)

/-- A name behind `@` is read, and the tokens behind it are the arguments. -/
theorem ofChars?_name {name behind : List Char}
    (hname : dottedName? (name ++ behind) = some (name, behind)) :
    ofChars? ('@' :: (name ++ behind)) =
      ((tokens? behind).bind arguments?).map (⟨String.ofList name, ·⟩) := by
  obtain ⟨c, rest, rfl, hc, -⟩ := exists_head_of_dottedName? hname
  have hgap : ((c :: rest) ++ behind).dropWhile isGap = (c :: rest) ++ behind := by
    rw [List.cons_append, List.dropWhile_cons, isGap_of_isIdentStart hc, if_neg Bool.false_ne_true]
  have hat : ('@' :: ((c :: rest) ++ behind)).dropWhile isGap =
      '@' :: ((c :: rest) ++ behind) := rfl
  rw [ofChars?]
  simp only [hat, hgap, hname, Option.bind_eq_bind, Option.bind_some]
  cases tokens? behind with
  | none => rfl
  | some ts =>
    rw [Option.bind_some, Option.bind_some]
    cases arguments? ts <;> rfl

/-- **One `@` in front of a name or two** make no difference. -/
theorem parse?_name {name behind : List Char}
    (hname : dottedName? (name ++ behind) = some (name, behind)) :
    parse? (String.ofList ('@' :: (name ++ behind))) =
        ((tokens? behind).bind arguments?).map (⟨String.ofList name, ·⟩) ∧
      parse? (String.ofList ('@' :: '@' :: (name ++ behind))) =
        ((tokens? behind).bind arguments?).map (⟨String.ofList name, ·⟩) := by
  have hone : dropDirectiveMark ('@' :: (name ++ behind)) = '@' :: (name ++ behind) := by
    obtain ⟨c, rest, rfl, hc, -⟩ := exists_head_of_dottedName? hname
    rw [List.cons_append, dropDirectiveMark.eq_2]
    rintro cs heq
    exact ne_of_isIdentStart hc (by decide) (List.cons.inj (List.cons.inj heq).2).1
  have htwo : dropDirectiveMark ('@' :: '@' :: (name ++ behind)) = '@' :: (name ++ behind) := rfl
  constructor
  · rw [parse?, String.toList_ofList, hone, ofChars?_name hname]
  · rw [parse?, String.toList_ofList, htwo, ofChars?_name hname]

/-- **An attribute word is walked over**, if no line break stands in a string literal. -/
theorem IsWord.walk {w : List Char} (h : IsWord w) (hlines : keepsLines .code w = true) :
    Schema.walk .code 0 w = some (.code, 0) := by
  obtain ⟨name, behind, rfl, hname, hbehind, hparse⟩ := h
  obtain ⟨ts, hts, args, hargs⟩ : ∃ ts, tokens? behind = some ts ∧ ∃ args,
      arguments? ts = some args := by
    rw [(parse?_name hname).1, Option.isSome_map, Option.isSome_iff_exists] at hparse
    obtain ⟨args, hargs⟩ := hparse
    obtain ⟨ts, hts, hargs⟩ := Option.bind_eq_some_iff.1 hargs
    exact ⟨ts, hts, args, hargs⟩
  obtain ⟨c, rest, rfl, hc, hrest⟩ := exists_head_of_dottedName? hname
  have hquiet : ∀ d ∈ '@' :: c :: rest, isQuiet d = true := by
    have htail : ∀ d ∈ rest, isQuiet d = true := fun d hd => isQuiet_of_isNameChar (hrest d hd)
    refine List.forall_mem_cons.2 ⟨by decide, List.forall_mem_cons.2 ⟨?_, htail⟩⟩
    exact isQuiet_of_isIdentRest (isIdentRest_of_isIdentStart hc)
  rw [← List.cons_append] at hlines ⊢
  rw [keepsLines_quiet hquiet] at hlines
  rw [walk_quiet hquiet]
  rcases hbehind with rfl | ⟨inside, rfl⟩
  · rfl
  · rw [tokens?_openParen] at hts
    obtain ⟨ts', hts', rfl⟩ := Option.map_eq_some_iff.1 hts
    obtain ⟨s, hrun, hresult⟩ := Option.bind_eq_some_iff.1 hargs
    have hdepth : s.depth = 0 := by
      cases s with
      | finished done => rfl
      | inside outer frame place => simp [State.result?] at hresult
    have hwalk := walk_of_tokens hts' hrun hlines (by simp [isGap])
    rwa [hdepth] at hwalk

end Attribute

end Sieve.Schema
