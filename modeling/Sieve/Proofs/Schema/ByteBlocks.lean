import Sieve.Proofs.Schema.ByteScan
import Sieve.Proofs.Schema.Slices

/-!
# Blocks, byte by byte

The blocks of a schema are cut out of its text by the places that the scanners for bytes give. A
search that cuts inside of a character, looks in front of the text or does not go on has no result;
but there is always one, the blocks that are found character by character.

## Main definitions

* `readBlock?` — the block behind a keyword
* `scanBlocks?` — all blocks of a text
* `endsIdent` — an identifier ends with the text

## Main results

* `readBlock?_eq` — the block behind a keyword is the one that is read character by character
* `blocksFrom_span` — a string literal or a comment is passed as a whole
* `scanBlocks?_bytes` — the blocks are those that are found character by character
-/

namespace Sieve.Schema

open Sieve.Text

/-! ### Places in a text -/

section

variable {source xs ys zs : List Char}

/-- A run ends between what is in its class and what follows. -/
theorem runEnd_of_eq {p : Char → Bool} {v : Bool} (hp : ∀ c, isAscii c = false → p c = v)
    (h : source = xs ++ ys) :
    runEnd (bytes source) p (byteLength xs) = byteLength (xs ++ ys.takeWhile p) ∧
      source = xs ++ ys.takeWhile p ++ ys.dropWhile p := by
  rw [List.append_assoc, List.takeWhile_append_dropWhile]
  exact ⟨by rw [h, runEnd_bytes hp], h⟩

theorem byteAt?_of_eq (h : source = xs ++ ys) :
    byteAt? (bytes source) (byteLength xs) = ys.head?.map leadByte := by
  rw [h, byteAt?_bytes]

theorem slice?_of_eq (h : source = xs ++ (ys ++ zs)) :
    (⟨byteLength xs, byteLength (xs ++ ys)⟩ : Span).slice? source = some ys :=
  slice?_eq_some_iff.2 ⟨xs, zs, h, rfl⟩

end

theorem byteLength_append_eq_left_iff {xs ys : List Char} :
    byteLength (xs ++ ys) = byteLength xs ↔ ys = [] := by
  rw [byteLength_append]
  exact ⟨fun h => eq_nil_of_byteLength_eq_zero (by omega), fun h => by rw [h]; rfl⟩

theorem byteLength_append_le_left_iff {xs ys : List Char} :
    byteLength (xs ++ ys) ≤ byteLength xs ↔ ys = [] := by
  rw [byteLength_append]
  exact ⟨fun h => eq_nil_of_byteLength_eq_zero (by omega), fun h => by rw [h]; exact Nat.le_refl _⟩

/-! ### One block -/

theorem BlockText.text_ne_nil (t : BlockText) : t.text ≠ [] := by
  rw [text]
  exact List.append_ne_nil_of_right_ne_nil _ (List.cons_ne_nil _ _)

theorem BlockText.byteLength_text_pos (t : BlockText) : 0 < byteLength t.text :=
  Nat.pos_of_ne_zero fun h => t.text_ne_nil (eq_nil_of_byteLength_eq_zero h)

/-- The block from `start` to the closing brace at `close`, cut out of a text. -/
def Block.cut? (source : List Char) (kind : BlockKind)
    (start nameStart nameEnd brace close : Nat) : Option Block := do
  let name ← (⟨nameStart, nameEnd⟩ : Span).slice? source
  let text ← (⟨start, close + 1⟩ : Span).slice? source
  let body ← (⟨brace + 1, close⟩ : Span).slice? source
  return ⟨kind, String.ofList name, String.ofList text, String.ofList body, ⟨start, close + 1⟩,
    brace + 1⟩

/-- The block whose body begins with a brace at `brace`; none inside of the result if there is no
brace, or none that closes it. -/
def readBody? (source : List Char) (kind : BlockKind) (start nameStart nameEnd brace : Nat) :
    Option (Option Block) :=
  if byteAt? (bytes source) brace ≠ some '\x7b' then some none
  else
    (closingBrace? (bytes source) 0 brace).bind fun
      | none => some none
      | some close => (Block.cut? source kind start nameStart nameEnd brace close).map some

/-- The block whose keyword stands from `start` to `keywordEnd`; none inside of the result if there
is no such block. -/
def readBlock? (source : List Char) (kind : BlockKind) (start keywordEnd : Nat) :
    Option (Option Block) :=
  let bs := bytes source
  let nameStart := runEnd bs isAsciiSpace keywordEnd
  if nameStart = keywordEnd ∨ bs.length ≤ nameStart then some none
  else
    (byteAt? bs nameStart).bind fun c =>
      if !isIdentStart c then some none
      else
        let nameEnd := runEnd bs isIdentRest nameStart
        readBody? source kind start nameStart nameEnd (runEnd bs isAsciiSpace nameEnd)

theorem closingBrace?_brace (xs ys : List Char) :
    closingBrace? (bytes (xs ++ '\x7b' :: ys)) 0 (byteLength xs) =
      some ((bodySpan? .code 0 ys).map fun p => byteLength (xs ++ '\x7b' :: p.1)) := by
  have hcomment : startsComment '\x7b' ys = false := rfl
  rw [closingBrace?_of_some (byteAt?_bytes_cons xs ys _), commentAt_bytes, hcomment,
    leadByte_of_isAscii rfl, if_neg Bool.false_ne_true, if_neg (by decide), if_pos rfl,
    byteLength_add_one xs '\x7b' rfl, List.append_cons,
    closingBrace?_bytes]
  simp

section

variable {source : List Char} (kind : BlockKind) (xs gap name inner : List Char)

/-- The block with the given parts at byte `pos`. -/
def Block.ofParts (pos : Nat) (body : List Char) : Block :=
  let head := kind.keyword.toList ++ gap ++ name ++ inner ++ ['\x7b']
  let text := head ++ body ++ ['\x7d']
  ⟨kind, String.ofList name, String.ofList text, String.ofList body, ⟨pos, pos + byteLength text⟩,
    pos + byteLength head⟩

/-- A text cut at the brace that closes the one that it begins with: what stands between the braces,
and what follows them. None if it begins with no brace, or if the other is missing. -/
def bracedSpan? : List Char → Option (List Char × List Char)
  | '\x7b' :: inside => bodySpan? .code 0 inside
  | _ => none

/-- **A block is cut out of a text where its parts stand.** -/
theorem Block.cut?_eq {body after : List Char}
    (h : source = xs ++ kind.keyword.toList ++ gap ++ name ++ inner ++
      '\x7b' :: (body ++ '\x7d' :: after)) :
    Block.cut? source kind (byteLength xs) (byteLength (xs ++ kind.keyword.toList ++ gap))
        (byteLength (xs ++ kind.keyword.toList ++ gap ++ name))
        (byteLength (xs ++ kind.keyword.toList ++ gap ++ name ++ inner))
        (byteLength (xs ++ kind.keyword.toList ++ gap ++ name ++ inner ++ '\x7b' :: body)) =
      some (Block.ofParts kind gap name inner (byteLength xs) body) := by
  obtain ⟨head, hhead⟩ : ∃ head, head = kind.keyword.toList ++ gap ++ name ++ inner ++ ['\x7b'] :=
    ⟨_, rfl⟩
  obtain ⟨text, htext⟩ : ∃ text, text = head ++ body ++ ['\x7d'] := ⟨_, rfl⟩
  have hcutName := slice?_of_eq (show source = xs ++ kind.keyword.toList ++ gap ++
      (name ++ (inner ++ '\x7b' :: (body ++ '\x7d' :: after))) by rw [h]; simp)
  have hcutBody := slice?_of_eq (show source = xs ++ head ++ (body ++ '\x7d' :: after) by
    rw [h, hhead]; simp)
  have hcutText := slice?_of_eq (show source = xs ++ (text ++ after) by
    rw [h, htext, hhead]; simp)
  have hbrace : byteLength (xs ++ kind.keyword.toList ++ gap ++ name ++ inner) + 1 =
      byteLength (xs ++ head) := by
    rw [byteLength_add_one _ '\x7b' rfl, hhead]
    simp only [List.append_assoc]
  have hclosing :
      byteLength (xs ++ kind.keyword.toList ++ gap ++ name ++ inner ++ '\x7b' :: body) =
        byteLength (xs ++ head ++ body) := by
    rw [hhead]
    simp
  have hclose : byteLength (xs ++ head ++ body) + 1 = byteLength (xs ++ text) := by
    rw [byteLength_add_one _ '\x7d' rfl, htext]
    simp only [List.append_assoc]
  rw [Block.cut?, hbrace, hclosing, hclose, hcutName, hcutText, hcutBody, Block.ofParts, ← hhead,
    ← htext, ← byteLength_append, ← byteLength_append]
  rfl

/-- **What stands behind a name is read as a body.** -/
theorem readBody?_eq {opened : List Char}
    (h : source = xs ++ kind.keyword.toList ++ gap ++ name ++ inner ++ opened) :
    readBody? source kind (byteLength xs) (byteLength (xs ++ kind.keyword.toList ++ gap))
        (byteLength (xs ++ kind.keyword.toList ++ gap ++ name))
        (byteLength (xs ++ kind.keyword.toList ++ gap ++ name ++ inner)) =
      some ((bracedSpan? opened).map fun p =>
        Block.ofParts kind gap name inner (byteLength xs) p.1) := by
  have hbrace : ∀ c, leadByte c = '\x7b' ↔ c = '\x7b' := fun c => leadByte_eq_iff rfl
  rw [readBody?, byteAt?_of_eq h]
  cases opened with
  | nil => rfl
  | cons c inside =>
    by_cases hc : c = '\x7b'
    · subst hc
      have hclosing :=
        closingBrace?_brace (xs ++ kind.keyword.toList ++ gap ++ name ++ inner) inside
      rw [← h] at hclosing
      rw [if_neg (by simp [hbrace]), hclosing, Option.bind_some, bracedSpan?]
      cases hbody : bodySpan? .code 0 inside with
      | none => rfl
      | some p =>
        rw [← append_of_bodySpan? hbody] at h
        rw [Option.map_some, Option.map_some]
        exact congrArg (Option.map some) (Block.cut?_eq kind xs gap name inner h)
    · have hnone : bracedSpan? (c :: inside) = none := by
        rw [bracedSpan?]
        intro cs hcs
        exact hc (List.cons.inj hcs).1
      rw [if_pos (by simp [hbrace, hc]), hnone]
      rfl

end

theorem Block.read?_eq (kind : BlockKind) (pos : Nat) (cs : List Char) :
    Block.read? kind pos cs =
      let named := cs.dropWhile isAsciiSpace
      let behind := named.dropWhile isIdentRest
      if cs.takeWhile isAsciiSpace = [] ∨ !named.head?.any isIdentStart then none
      else
        (bracedSpan? (behind.dropWhile isAsciiSpace)).map fun p =>
          (Block.ofParts kind (cs.takeWhile isAsciiSpace) (named.takeWhile isIdentRest)
            (behind.takeWhile isAsciiSpace) pos p.1, p.2) := by
  simp only [Block.read?]
  split
  · rfl
  · split
    · next inside hopen => rw [hopen, bracedSpan?]; rfl
    · next hopen => rw [bracedSpan?, Option.map_none]; exact hopen

/-- **A block is cut out where it is read.** -/
theorem readBlock?_eq (xs rest : List Char) (kind : BlockKind) :
    readBlock? (xs ++ (kind.keyword.toList ++ rest)) kind (byteLength xs)
        (byteLength (xs ++ kind.keyword.toList)) =
      some ((Block.read? kind (byteLength xs) rest).map Prod.fst) := by
  -- what is read ends with one part after the other, and the next part begins there
  obtain ⟨source, hsource⟩ : ∃ source, source = xs ++ (kind.keyword.toList ++ rest) := ⟨_, rfl⟩
  obtain ⟨hnameStart, hatName⟩ := runEnd_of_eq (fun c => isAsciiSpace_of_not_isAscii)
    (hsource.trans (List.append_assoc ..).symm)
  obtain ⟨hnameEnd, hatInner⟩ := runEnd_of_eq (fun c => isIdentRest_of_not_isAscii) hatName
  obtain ⟨hbrace, hatBrace⟩ := runEnd_of_eq (fun c => isAsciiSpace_of_not_isAscii) hatInner
  have hend : (bytes source).length =
      byteLength (xs ++ kind.keyword.toList ++ rest.takeWhile isAsciiSpace ++
        rest.dropWhile isAsciiSpace) := by
    rw [length_bytes, ← hatName]
  rw [← hsource, readBlock?, Block.read?_eq]
  simp only [hnameStart, hnameEnd, hbrace, hend, byteAt?_of_eq hatName,
    readBody?_eq kind xs _ _ _ hatBrace, byteLength_append_eq_left_iff,
    byteLength_append_le_left_iff]
  cases hnamed : rest.dropWhile isAsciiSpace with
  | nil => simp
  | cons c cs =>
    have hstart := apply_leadByte (fun c => isIdentStart_of_not_isAscii) c
    rw [List.head?_cons, Option.map_some, Option.bind_some, hstart, Option.any_some]
    by_cases hgap : rest.takeWhile isAsciiSpace = []
    · simp [hgap]
    · cases isIdentStart c with
      | false => simp [hgap]
      | true =>
        simp only [hgap, false_or, reduceCtorEq, if_false, Bool.not_true, Bool.false_eq_true,
          Option.map_map]
        rfl

/-! ### All blocks -/

/-- A text ends inside of an identifier. -/
def endsIdent (cs : List Char) : Bool := cs.getLast?.any isIdentRest

/-- The byte in front of `i` belongs to an identifier. -/
def afterIdent? (bs : List UInt8) (i : Nat) : Option Bool :=
  if i = 0 then some false else (byteAt? bs (i - 1)).map isIdentRest

/-- The block that begins with the word from `start` to `wordEnd`; none inside of the result if it
begins none. -/
def wordBlock? (source : List Char) (start wordEnd : Nat) : Option (Option Block) :=
  ((⟨start, wordEnd⟩ : Span).slice? source).bind fun word =>
    match BlockKind.ofKeyword? (String.ofList word) with
    | none => some none
    | some kind => readBlock? source kind start wordEnd

/-- All blocks of a text from `i` on, inside `depth` open braces. -/
def scanBlocks? (source : List Char) (depth i : Nat) : Option (List Block) :=
  match _h : byteAt? (bytes source) i with
  | none => some []
  | some c =>
    if commentAt (bytes source) i c then
      (lineEnd? (bytes source) i).bind fun j =>
        if i < j then scanBlocks? source depth j else none
    else if c = '"' then
      let j := stringEnd (bytes source) (i + 1)
      if i < j then scanBlocks? source depth j else none
    else if c = '\x7b' then scanBlocks? source (depth + 1) (i + 1)
    else if c = '\x7d' then scanBlocks? source (depth - 1) (i + 1)
    else if depth = 0 ∧ isIdentStart c then
      (afterIdent? (bytes source) i).bind fun afterIdent =>
        if afterIdent then scanBlocks? source depth (i + 1)
        else
          let wordEnd := runEnd (bytes source) isIdentRest i
          (wordBlock? source i wordEnd).bind fun
            | none => if i < wordEnd then scanBlocks? source 0 wordEnd else none
            | some b =>
              if i < b.span.stop then (scanBlocks? source 0 b.span.stop).map (b :: ·) else none
    else scanBlocks? source depth (i + 1)
termination_by (bytes source).length - i
decreasing_by
  all_goals
    have hlt := lt_length_of_byteAt? _h
    omega

theorem endsIdent_append_singleton (xs : List Char) (c : Char) :
    endsIdent (xs ++ [c]) = isIdentRest c := by
  rw [endsIdent, List.getLast?_append]
  rfl

theorem endsIdent_append_word (xs ys : List Char) {c : Char} (hc : isIdentRest c = true) :
    endsIdent (xs ++ c :: ys.takeWhile isIdentRest) = true := by
  rw [endsIdent, List.getLast?_append, List.getLast?_eq_some_getLast (List.cons_ne_nil _ _),
    Option.some_or, Option.any_some]
  rcases List.mem_cons.1 (List.getLast_mem (List.cons_ne_nil c (ys.takeWhile isIdentRest)))
    with hlast | hlast
  · rw [hlast, hc]
  · exact List.mem_takeWhile_imp hlast

/-- A block ends with a brace, so a word may follow it at once. -/
theorem BlockText.endsIdent_append_text (t : BlockText) (xs : List Char) :
    endsIdent (xs ++ t.text) = false := by
  rw [text, ← List.append_assoc, endsIdent_append_singleton]
  rfl

/-- **The byte in front tells whether an identifier ends there.** -/
theorem afterIdent?_bytes (xs ys : List Char) :
    afterIdent? (bytes (xs ++ ys)) (byteLength xs) = some (endsIdent xs) := by
  rcases List.eq_nil_or_concat xs with rfl | ⟨zs, c, rfl⟩
  · rfl
  · have hsize := c.utf8Size_pos
    have hpos : byteLength (zs ++ [c]) ≠ 0 := by
      rw [byteLength_append, byteLength_cons]
      omega
    rw [List.concat_eq_append, afterIdent?, if_neg hpos, List.append_assoc, List.singleton_append,
      map_byteAt?_last fun c => isIdentRest_of_not_isAscii, endsIdent_append_singleton]

/-- **A word is cut out where it stands**, and with it the block that it begins. -/
theorem wordBlock?_bytes (xs : List Char) (c : Char) (cs : List Char) :
    wordBlock? (xs ++ c :: cs) (byteLength xs) (byteLength (xs ++ c :: cs.takeWhile isIdentRest)) =
      some ((Block.ofWord? (byteLength xs) c cs).map Prod.fst) := by
  have hsource : xs ++ c :: cs =
      xs ++ (c :: cs.takeWhile isIdentRest ++ cs.dropWhile isIdentRest) := by
    rw [List.cons_append, List.takeWhile_append_dropWhile]
  rw [wordBlock?, slice?_of_eq hsource, Option.bind_some, Block.ofWord?]
  cases hkind : BlockKind.ofKeyword? (String.ofList (c :: cs.takeWhile isIdentRest)) with
  | none => rfl
  | some kind =>
    have hread := readBlock?_eq xs (cs.dropWhile isIdentRest) kind
    rw [BlockKind.toList_keyword_of_ofKeyword? hkind, ← hsource] at hread
    exact hread

section

variable {source : List Char}

theorem scanBlocks?_of_none {depth i : Nat} (h : byteAt? (bytes source) i = none) :
    scanBlocks? source depth i = some [] := by
  rw [scanBlocks?]
  split
  · rfl
  · next hc => cases hc.symm.trans h

theorem scanBlocks?_of_some {depth i : Nat} {c : Char} (h : byteAt? (bytes source) i = some c) :
    scanBlocks? source depth i =
      if commentAt (bytes source) i c then
        (lineEnd? (bytes source) i).bind fun j =>
          if i < j then scanBlocks? source depth j else none
      else if c = '"' then
        if i < stringEnd (bytes source) (i + 1) then
          scanBlocks? source depth (stringEnd (bytes source) (i + 1))
        else none
      else if c = '\x7b' then scanBlocks? source (depth + 1) (i + 1)
      else if c = '\x7d' then scanBlocks? source (depth - 1) (i + 1)
      else if depth = 0 ∧ isIdentStart c then
        (afterIdent? (bytes source) i).bind fun afterIdent =>
          if afterIdent then scanBlocks? source depth (i + 1)
          else
            (wordBlock? source i (runEnd (bytes source) isIdentRest i)).bind fun
              | none =>
                if i < runEnd (bytes source) isIdentRest i then
                  scanBlocks? source 0 (runEnd (bytes source) isIdentRest i)
                else none
              | some b =>
                if i < b.span.stop then (scanBlocks? source 0 b.span.stop).map (b :: ·) else none
      else scanBlocks? source depth (i + 1) := by
  rw [scanBlocks?]
  split
  · next hc => cases hc.symm.trans h
  · next hc =>
    cases hc.symm.trans h
    rfl

end

theorem scanBlocks?_behind_char (xs ys : List Char) (c : Char) (depth : Nat) :
    scanBlocks? (xs ++ c :: ys) depth (byteLength xs + 1) =
      scanBlocks? (xs ++ c :: ys) depth (byteLength (xs ++ [c])) := by
  refine eq_behind_char ys fun _ i d hd hascii => ?_
  have hstart : ¬ (depth = 0 ∧ isIdentStart d = true) := fun hd => by
    rw [isIdentStart_of_not_isAscii hascii] at hd
    exact Bool.false_ne_true hd.2
  rw [scanBlocks?_of_some hd, commentAt_of_not_isAscii _ hascii, if_neg Bool.false_ne_true,
    if_neg (ne_of_isAscii hascii rfl), if_neg (ne_of_isAscii hascii rfl),
    if_neg (ne_of_isAscii hascii rfl), if_neg hstart]

/-- **Other characters are passed one by one**, a comment or a string literal as a whole. -/
theorem scanBlocks?_char (xs : List Char) {c : Char} {ys : List Char} {depth : Nat}
    (h : ¬ BeginsWord .code depth (endsIdent xs) c) :
    scanBlocks? (xs ++ c :: ys) depth (byteLength xs) =
      scanBlocks? (xs ++ c :: ys) (braceDepth depth c) (codeBehind xs c ys) := by
  rw [scanBlocks?_of_some (byteAt?_bytes_cons xs ys c), commentAt_bytes]
  simp (disch := decide) only [leadByte_eq_iff, apply_leadByte fun c => isIdentStart_of_not_isAscii]
  cases hcomment : startsComment c ys with
  | true =>
    have hdepth : braceDepth depth c = depth := by
      rw [(WordPlace.startsComment_eq_true_iff.1 hcomment).1]
      rfl
    rw [if_pos rfl, lineEnd?_of_startsComment xs hcomment, Option.bind_some,
      if_pos (lt_codeBehind xs c ys), hdepth]
  | false =>
    rw [if_neg Bool.false_ne_true]
    by_cases hquote : c = '"'
    · subst hquote
      rw [if_pos rfl, stringEnd_of_quote, if_pos (lt_codeBehind xs '"' ys)]
      rfl
    · rw [if_neg hquote, codeBehind_of_char xs hcomment hquote]
      simp only [scanBlocks?_behind_char]
      by_cases hbrace : c = '\x7b'
      · subst hbrace
        rw [if_pos rfl]
        rfl
      · by_cases hclose : c = '\x7d'
        · subst hclose
          rw [if_neg hbrace, if_pos rfl]
          rfl
        · rw [if_neg hbrace, if_neg hclose, braceDepth, if_neg hbrace, if_neg hclose,
            afterIdent?_bytes, Option.bind_some]
          by_cases hstart : depth = 0 ∧ isIdentStart c = true
          · have hafter : endsIdent xs = true := by
              by_contra hnot
              exact h ⟨Mode.reading_code c, hstart.1, hstart.2, by simpa using hnot⟩
            rw [if_pos hstart, if_pos hafter]
          · rw [if_neg hstart]

/-- **A word is passed as a whole**, with the block that it begins. -/
theorem scanBlocks?_word (xs : List Char) {c : Char} {ys : List Char} {depth : Nat}
    (h : BeginsWord .code depth (endsIdent xs) c) :
    scanBlocks? (xs ++ c :: ys) depth (byteLength xs) =
      match Block.ofWord? (byteLength xs) c ys with
      | none => scanBlocks? (xs ++ c :: ys) 0 (byteLength (xs ++ c :: ys.takeWhile isIdentRest))
      | some (b, _) => (scanBlocks? (xs ++ c :: ys) 0 b.span.stop).map (b :: ·) := by
  obtain ⟨-, rfl, hstart, hafter⟩ := h
  have hrest := isIdentRest_of_isIdentStart hstart
  have hne : ∀ d, isIdentStart d = false → c ≠ d := by
    rintro d hd rfl
    rw [hstart] at hd
    cases hd
  have hcomment : startsComment c ys = false :=
    Bool.eq_false_iff.2 fun h => hne '/' rfl (WordPlace.startsComment_eq_true_iff.1 h).1
  have hend := runEnd_bytes (fun c => isIdentRest_of_not_isAscii) xs (c :: ys)
  rw [List.takeWhile_cons_of_pos hrest] at hend
  rw [scanBlocks?_of_some (byteAt?_bytes_cons xs ys c), commentAt_bytes, hcomment,
    leadByte_of_isAscii (isAscii_of_isIdentRest hrest), if_neg Bool.false_ne_true,
    if_neg (hne _ rfl), if_neg (hne _ rfl), if_neg (hne _ rfl), if_pos ⟨rfl, hstart⟩,
    afterIdent?_bytes, hafter, Option.bind_some, if_neg Bool.false_ne_true, hend,
    wordBlock?_bytes]
  cases hword : Block.ofWord? (byteLength xs) c ys with
  | none => exact if_pos (byteLength_lt_append_cons xs _ c)
  | some p =>
    obtain ⟨t, -, hb⟩ := BlockText.ofWord?_eq_some_iff.1 hword
    have hstop : byteLength xs < p.1.span.stop := by
      rw [hb]
      exact Nat.lt_add_of_pos_right t.byteLength_text_pos
    exact if_pos hstop

/-! ### The same blocks, character by character -/

/-- Only a quote leads back to code. -/
theorem Mode.eq_quote_of_afterWord {m : Mode} {c : Char} (hm : m ≠ code)
    (h : m.afterWord c = code) : c = '"' := by
  cases m with
  | code => exact absurd rfl hm
  | string =>
    by_contra hquote
    by_cases hback : c = '\\'
    · rw [afterWord, if_pos hback] at h
      cases h
    · rw [afterWord, if_neg hback, if_neg hquote] at h
      cases h
  | escape => cases h
  | comment => cases h

/-- Only a quote or a comment leads away from code. -/
theorem Mode.isIdentRest_of_afterCode {c : Char} {ys : List Char}
    (h : code.afterCode c ys ≠ code) : isIdentRest c = false := by
  by_contra hident
  have hne : ∀ d, isIdentRest d = false → c ≠ d := by
    rintro d hd rfl
    exact hident hd
  refine h (afterCode_of_char (Bool.eq_false_iff.2 fun hcomment => ?_) (hne _ rfl))
  exact hne '/' rfl (WordPlace.startsComment_eq_true_iff.1 hcomment).1

/-- What stands in front of a character matters only if a word may begin there. -/
theorem blocksFrom_congr_afterIdent {m : Mode} {depth pos : Nat} {cs : List Char}
    (h : ∀ c ∈ cs.head?, isIdentStart c = false) (a b : Bool) :
    blocksFrom m depth a pos cs = blocksFrom m depth b pos cs := by
  cases cs with
  | nil => rw [blocksFrom, blocksFrom]
  | cons c cs =>
    have hnot : ∀ afterIdent, ¬ BeginsWord m depth afterIdent c := fun afterIdent hbegin => by
      have hstart := hbegin.2.2.1
      rw [h c rfl] at hstart
      cases hstart
    rw [blocksFrom_char (hnot a), blocksFrom_char (hnot b)]

/-- **A string literal or a comment is passed as a whole.** -/
theorem blocksFrom_span {m : Mode} (hm : m ≠ .code) (depth pos : Nat) (xs ys : List Char) :
    blocksFrom m depth false pos ys =
      blocksFrom .code depth (endsIdent (xs ++ (m.span ys).1)) (pos + byteLength (m.span ys).1)
        (m.span ys).2 := by
  induction ys generalizing m pos xs with
  | nil => rw [Mode.span, blocksFrom, blocksFrom]
  | cons c ys ih =>
    by_cases hread : m.reading c = .code
    · have hbreak : c = '\n' := by
        by_contra hc
        rw [Mode.reading, if_neg fun h => hc h.1] at hread
        exact hm hread
      subst hbreak
      have hcode : blocksFrom m depth false pos ('\n' :: ys) =
          blocksFrom .code depth false pos ('\n' :: ys) := by
        rw [blocksFrom, blocksFrom, hread, Mode.reading_code]
      rw [hcode, Mode.span, if_pos hread]
      exact blocksFrom_congr_afterIdent (by simp [isIdentStart, isAsciiLetter]) _ _
    · have hself := Mode.reading_eq_self hread
      have hnot : ¬ BeginsWord m depth false c := fun h => hread h.1
      rw [blocksFrom_char hnot, if_neg hread, hself, Mode.afterCode_of_ne hm,
        Mode.span_cons_of_ne hread]
      rw [decide_eq_false hm, Bool.false_and]
      by_cases hafter : m.afterWord c = .code
      · have hends : endsIdent (xs ++ [c]) = false := by
          rw [endsIdent_append_singleton, Mode.eq_quote_of_afterWord hm hafter]
          rfl
        rw [hafter, Mode.span_code, hends]
        rfl
      · rw [ih hafter (pos + c.utf8Size) (xs ++ [c]), List.append_assoc, List.singleton_append,
          byteLength_cons, Nat.add_assoc]

/-- **One step of the search**, over a character, a comment or a string literal. -/
theorem blocksFrom_code_char {depth : Nat} {c : Char} {xs ys : List Char}
    (h : ¬ BeginsWord .code depth (endsIdent xs) c) :
    blocksFrom .code depth (endsIdent xs) (byteLength xs) (c :: ys) =
      blocksFrom .code (braceDepth depth c)
        (endsIdent (xs ++ c :: ((Mode.code.afterCode c ys).span ys).1)) (codeBehind xs c ys)
        ((Mode.code.afterCode c ys).span ys).2 := by
  rw [blocksFrom_char h, Mode.reading_code, if_pos rfl, codeBehind, decide_eq_true rfl,
    Bool.true_and]
  by_cases hmode : Mode.code.afterCode c ys = .code
  · rw [hmode, Mode.span_code, endsIdent_append_singleton, byteLength_append]
    rfl
  · rw [Mode.isIdentRest_of_afterCode hmode, blocksFrom_span hmode _ _ (xs ++ [c]),
      List.append_assoc, List.singleton_append, byteLength_append, byteLength_cons, Nat.add_assoc]

/-- **The blocks that are found byte by byte** are those that are found character by character, and
no step of the search goes wrong. -/
theorem scanBlocks?_bytes (xs ys : List Char) (depth : Nat) :
    scanBlocks? (xs ++ ys) depth (byteLength xs) =
      some (blocksFrom .code depth (endsIdent xs) (byteLength xs) ys) := by
  -- between two steps both searches stand in code: behind a word, a block, a comment or a literal
  induction hn : ys.length using Nat.strongRecOn generalizing xs ys depth with
  | ind n ih =>
    cases ys with
    | nil =>
      rw [scanBlocks?_of_none (byteAt?_bytes xs []), blocksFrom]
    | cons c ys =>
      rw [List.length_cons] at hn
      by_cases hbegin : BeginsWord .code depth (endsIdent xs) c
      · rw [scanBlocks?_word xs hbegin, blocksFrom_word hbegin]
        cases hword : Block.ofWord? (byteLength xs) c ys with
        | none =>
          have hlength := (List.dropWhile_sublist (l := ys) isIdentRest).length_le
          have hrest := ih _ (by omega) (xs ++ c :: ys.takeWhile isIdentRest)
            (ys.dropWhile isIdentRest) 0 rfl
          rw [List.append_assoc, List.cons_append, List.takeWhile_append_dropWhile,
            endsIdent_append_word xs ys (isIdentRest_of_isIdentStart hbegin.2.2.1)] at hrest
          rw [blocksBehind, ← byteLength_append]
          exact hrest
        | some p =>
          obtain ⟨t, htext, hb⟩ := BlockText.ofWord?_eq_some_iff.1 hword
          have hlength := congrArg List.length htext
          have hpos := List.length_pos_iff.2 t.text_ne_nil
          rw [List.length_cons, List.length_append] at hlength
          have hrest := ih _ (by omega) (xs ++ t.text) p.2 0 rfl
          rw [List.append_assoc, ← htext, t.endsIdent_append_text] at hrest
          have hstop : p.1.span.stop = byteLength (xs ++ t.text) := by
            rw [hb, byteLength_append]
            rfl
          simp only [blocksBehind, hstop, hrest, Option.map_some]
      · have hlength := (Mode.code.afterCode c ys).length_span_le ys
        have hrest := ih _ (by omega) (xs ++ c :: ((Mode.code.afterCode c ys).span ys).1)
          ((Mode.code.afterCode c ys).span ys).2 (braceDepth depth c) rfl
        rw [List.append_assoc, List.cons_append, Mode.span_append] at hrest
        rw [scanBlocks?_char xs hbegin, blocksFrom_code_char hbegin]
        exact hrest

end Sieve.Schema
