import Sieve.Schema.Mode
import Sieve.Schema.Scalar
import Sieve.Schema.Span

/-!
# Blocks

A schema is made of blocks: a keyword, a name, and a body in braces. Only blocks of models and
enums are taken out; other blocks are stepped over, and so are declarations that lack a name, an
opening brace or its partner. Braces inside string literals and comments do not count.

## Main definitions

* `Block` — a block with its place in the text
* `bodySpan?` — a text up to the brace that closes it
* `Block.read?` — the block that follows a keyword
* `blocks`, `Blocks` — all blocks of a text, apart by kind

## Main results

* `append_of_bodySpan?` — cutting at the closing brace loses nothing
-/

namespace Sieve.Schema

open Sieve.Text

/-- What a block declares. -/
inductive BlockKind where
  | model
  | enumeration
deriving Repr, DecidableEq, Inhabited

/-- The keyword of a kind of block. -/
def BlockKind.keyword : BlockKind → String
  | model => "model"
  | enumeration => "enum"

/-- The kind of block that a keyword begins. -/
def BlockKind.ofKeyword? (s : String) : Option BlockKind :=
  [model, enumeration].find? fun k => k.keyword == s

/-- A block of a schema. -/
structure Block where
  kind : BlockKind
  name : String
  /-- The whole block, from its keyword to its closing brace. -/
  text : String
  /-- The text between the braces. -/
  body : String
  /-- The place of the whole block. -/
  span : Span
  /-- Where the body begins, in bytes. -/
  bodyStart : Nat
deriving Repr, DecidableEq, Inhabited

/-! ### Closing braces -/

/-- How many braces are open after one more character of code. -/
def braceDepth (depth : Nat) (c : Char) : Nat :=
  if c = '\x7b' then depth + 1 else if c = '\x7d' then depth - 1 else depth

/-- A text cut at the brace that closes it, with `depth` braces open in between: what comes before
the brace, and what comes after it. None if the brace is missing. -/
def bodySpan? (m : Mode) (depth : Nat) : List Char → Option (List Char × List Char)
  | [] => none
  | c :: cs =>
    let read := m.reading c
    if read = .code ∧ c = '\x7d' ∧ depth = 0 then some ([], cs)
    else
      (bodySpan? (read.afterCode c cs) (if read = .code then braceDepth depth c else depth) cs).map
        fun p => (c :: p.1, p.2)

theorem append_of_bodySpan? {m : Mode} {depth : Nat} {cs body rest : List Char}
    (h : bodySpan? m depth cs = some (body, rest)) : body ++ '\x7d' :: rest = cs := by
  induction cs generalizing m depth body with
  | nil => simp [bodySpan?] at h
  | cons c cs ih =>
    rw [bodySpan?] at h
    split at h
    · next hc =>
      obtain ⟨rfl, rfl⟩ : [] = body ∧ cs = rest := by simpa using h
      simp [hc.2.1]
    · obtain ⟨⟨b, r⟩, hp, hb⟩ := Option.map_eq_some_iff.1 h
      obtain ⟨rfl, rfl⟩ : c :: b = body ∧ r = rest := by simpa using hb
      simp [ih hp]

/-! ### One block -/

/-- The block whose keyword stands at byte `pos`, given what follows the keyword; and what follows
the block. -/
def Block.read? (kind : BlockKind) (pos : Nat) (cs : List Char) : Option (Block × List Char) :=
  let named := cs.dropWhile isAsciiSpace
  let name := named.takeWhile isIdentRest
  let opened := (named.dropWhile isIdentRest).dropWhile isAsciiSpace
  if cs.takeWhile isAsciiSpace = [] ∨ !named.head?.any isIdentStart then none
  else
    match opened with
    | '\x7b' :: inside =>
      (bodySpan? .code 0 inside).map fun p =>
        let head := kind.keyword.toList ++ cs.takeWhile isAsciiSpace ++ name ++
          (named.dropWhile isIdentRest).takeWhile isAsciiSpace ++ ['\x7b']
        let text := head ++ p.1 ++ ['\x7d']
        (⟨kind, String.ofList name, String.ofList text, String.ofList p.1,
          ⟨pos, pos + byteLength text⟩, pos + byteLength head⟩, p.2)
    | _ => none

theorem Block.length_of_read? {kind : BlockKind} {pos : Nat} {cs rest : List Char} {b : Block}
    (h : Block.read? kind pos cs = some (b, rest)) : rest.length < cs.length := by
  simp only [Block.read?] at h
  split at h
  · simp at h
  · split at h
    · next inside hopen =>
      obtain ⟨⟨body, r⟩, hp, hb⟩ := Option.map_eq_some_iff.1 h
      obtain rfl : r = rest := by simpa using (Prod.mk.inj hb).2
      have happ := congrArg List.length (append_of_bodySpan? hp)
      have hlen := congrArg List.length hopen
      have h₁ := (List.dropWhile_sublist (l := cs) isAsciiSpace).length_le
      have h₂ := (List.dropWhile_sublist (l := cs.dropWhile isAsciiSpace) isIdentRest).length_le
      have h₃ := (List.dropWhile_sublist
        (l := (cs.dropWhile isAsciiSpace).dropWhile isIdentRest) isAsciiSpace).length_le
      simp only [List.length_append, List.length_cons] at happ hlen
      omega
    · simp at h

/-! ### All blocks -/

/-- The blocks of the text `cs`, which begins at byte `pos` inside `depth` open braces. A keyword
counts only outside of all braces, and only if the character before it, `afterIdent`, does not
belong to an identifier. -/
def blocksFrom (m : Mode) (depth : Nat) (afterIdent : Bool) (pos : Nat) :
    List Char → List Block
  | [] => []
  | c :: cs =>
    let read := m.reading c
    if read = .code ∧ depth = 0 ∧ isIdentStart c ∧ !afterIdent then
      let word := c :: cs.takeWhile isIdentRest
      let rest := cs.dropWhile isIdentRest
      match BlockKind.ofKeyword? (String.ofList word) with
      | none => blocksFrom .code 0 true (pos + byteLength word) rest
      | some kind =>
        match _hread : Block.read? kind pos rest with
        | none => blocksFrom .code 0 true (pos + byteLength word) rest
        | some (b, after) => b :: blocksFrom .code 0 false b.span.stop after
    else
      blocksFrom (read.afterCode c cs) (if read = .code then braceDepth depth c else depth)
        (read = .code && isIdentRest c) (pos + c.utf8Size) cs
termination_by cs => cs.length
decreasing_by
  · have := (List.dropWhile_sublist (l := cs) isIdentRest).length_le
    simp only [List.length_cons]
    omega
  · have := (List.dropWhile_sublist (l := cs) isIdentRest).length_le
    simp only [List.length_cons]
    omega
  · have := (List.dropWhile_sublist (l := cs) isIdentRest).length_le
    have hrest : after.length < (cs.dropWhile isIdentRest).length :=
      Block.length_of_read? _hread
    simp only [List.length_cons]
    omega
  · simp

/-- All blocks of a text, in order. -/
def blocks (source : String) : List Block := blocksFrom .code 0 false 0 source.toList

/-- The blocks of a text, apart by kind. -/
structure Blocks where
  models : List Block
  enums : List Block
deriving Repr, Inhabited

/-- The blocks of a text, apart by kind. -/
def Blocks.extract (source : String) : Blocks :=
  ⟨(blocks source).filter (·.kind == .model), (blocks source).filter (·.kind == .enumeration)⟩

/-- The names that the blocks declare. -/
def Blocks.names (bs : Blocks) : Names := ⟨bs.models.map Block.name, bs.enums.map Block.name⟩

end Sieve.Schema
