import Mathlib.Data.List.Induction
import Sieve.Source.Registry

/-!
# Where a registry reads again

A registry answers a load from memory if it holds the very text, wherever that text came from. Such
a load counts as a hit and leaves everything else alone: the origin stays that of the last load that
was parsed, and it is there that a reload reads.

So of two loads of one text the earlier one decides. Whoever loads a file whose text is at hand from
another place gets its document, but a reload goes to the other place.

## Main definitions

* `Step`, `Registry.run` — a request with the files as they are then, and a run of them
* `Request.Reads` — a load that finds a text at an origin
* `Registry.Does` — all that a request may do to a registry
* `Registry.Parses` — a load that is not answered from memory

## Main results

* `Registry.does_answer` — an answer does one of these things
* `Registry.lastParsed_of_origin?` — the origin is that of the last load that was parsed
* `Registry.origin?_run_load_iff` — when the origin is that of the load just made
-/

namespace Sieve.Source

open Sieve.Files

/-- A request, with the files as they are when it is made. -/
structure Step where
  root : Node
  request : Request

namespace Request

/-- The request is a load from an origin, and finds a text there. -/
inductive Reads (root : Node) : Request → Origin → String → Prop where
  | text (source : String) (forced : Bool) :
    Reads root (.load source forced) (.text source) source
  | path {path : String} {extensions : List String} {source : String}
      (h : readSource root path extensions = .ok source) :
    Reads root (.loadPath path extensions) (.path path extensions) source

/-- The request is a load that parses its text even if it is at hand. -/
def isForced : Request → Bool
  | load _ forced => forced
  | _ => false

end Request

namespace Registry

variable {r : Registry} {root : Node} {q : Request} {o : Origin} {source : String}
  {steps : List Step}

/-! ### One request -/

/-- The text at hand is the given one. -/
def holds (r : Registry) (source : String) : Bool := r.held.any fun h => h.source == source

theorem fetch_of_holds (h : r.holds source = true) :
    r.fetch o source = { r with hits := r.hits + 1 } := if_pos h

theorem fetch_of_not_holds (h : r.holds source = false) : r.fetch o source = r.store o source :=
  if_neg (by rw [← holds, h]; exact Bool.false_ne_true)

/-- The load of a text from an origin that a step makes is parsed, and not answered from memory. -/
def Parses (r : Registry) (s : Step) (o : Origin) : Prop :=
  ∃ source, s.request.Reads s.root o source ∧
    (s.request.isForced = true ∨ r.holds source = false)

/-- What a request may do to a registry. -/
inductive Does (root : Node) (r : Registry) : Request → Registry → Prop where
  /-- It fails and changes nothing. -/
  | fail {q : Request} : Does root r q r
  /-- It is a load that is parsed. -/
  | parse {q : Request} {o : Origin} {source : String} (hreads : q.Reads root o source)
      (hparses : q.isForced = true ∨ r.holds source = false) : Does root r q (r.store o source)
  /-- It is a load that is answered from memory. -/
  | remember {q : Request} {o : Origin} {source : String} (hreads : q.Reads root o source)
      (hforced : q.isForced = false) (hholds : r.holds source = true) :
    Does root r q { r with hits := r.hits + 1 }
  /-- It reads the origin again. -/
  | reload {o : Origin} {source : String} (horigin : r.origin? = some o)
      (hread : readOrigin root o = .ok source) : Does root r .reload (r.store o source)
  /-- It forgets the document. -/
  | clear : Does root r .clear { r with held := none }

/-- A load that finds its text answers with a document: the one at hand, or a new one. -/
theorem answer_of_reads (r : Registry) (h : q.Reads root o source) :
    r.answer root q =
      let after := if q.isForced then r.store o source else r.fetch o source
      (after, .ok after.current?) := by
  cases h with
  | text source forced => cases forced <;> rfl
  | path h => simp [answer, apply, h, Except.map, Request.isForced]

theorem does_of_reads (h : q.Reads root o source) : r.Does root q (r.answer root q).1 := by
  rw [answer_of_reads r h]
  cases hforced : q.isForced with
  | true => exact .parse h (.inl hforced)
  | false =>
    show r.Does root q (r.fetch o source)
    cases hholds : r.holds source with
    | true =>
      rw [fetch_of_holds hholds]
      exact .remember h hforced hholds
    | false =>
      rw [fetch_of_not_holds hholds]
      exact .parse h (.inr hholds)

/-- **One request.** -/
theorem does_answer (r : Registry) (root : Node) (q : Request) :
    r.Does root q (r.answer root q).1 := by
  cases q with
  | load source forced => exact does_of_reads (.text source forced)
  | loadPath path extensions =>
    cases h : readSource root path extensions with
    | ok source => exact does_of_reads (.path h)
    | error e =>
      simp only [answer, apply, h, Except.map]
      exact .fail
  | reload =>
    cases horigin : r.origin? with
    | none =>
      simp only [answer, apply, horigin]
      exact .fail
    | some o =>
      cases hread : readOrigin root o with
      | ok source =>
        simp only [answer, apply, horigin, hread, Except.map]
        exact .reload horigin hread
      | error e =>
        simp only [answer, apply, horigin, hread, Except.map]
        exact .fail
  | clear => exact .clear

/-- A load that finds its text is answered with a document. -/
theorem exists_document_of_reads (r : Registry) (h : q.Reads root o source) :
    ∃ d, (r.answer root q).2 = .ok (some d) := by
  rw [answer_of_reads r h]
  cases q.isForced with
  | true => exact ⟨_, rfl⟩
  | false =>
    show ∃ d, Except.ok (r.fetch o source).current? = .ok (some d)
    cases hholds : r.holds source with
    | false =>
      rw [fetch_of_not_holds hholds]
      exact ⟨_, rfl⟩
    | true =>
      obtain ⟨held, hheld, -⟩ := (Option.any_eq_true _ _).1 hholds
      rw [fetch_of_holds hholds, current?, hheld]
      exact ⟨_, rfl⟩

theorem origin?_answer_of_parses {s : Step} (h : r.Parses s o) :
    (r.answer s.root s.request).1.origin? = some o := by
  obtain ⟨source, hreads, hparses⟩ := h
  rw [answer_of_reads r hreads]
  show (if s.request.isForced = true then r.store o source else r.fetch o source).origin? = some o
  rcases hparses with hforced | hholds
  · rw [if_pos hforced]
    rfl
  · rw [fetch_of_not_holds hholds, ite_self]
    rfl

theorem origin?_answer_of_remember (h : q.Reads root o source) (hforced : q.isForced = false)
    (hholds : r.holds source = true) : (r.answer root q).1.origin? = r.origin? := by
  rw [answer_of_reads r h, hforced, fetch_of_holds hholds]
  rfl

/-- Whatever is no parsed load keeps the origin, if it does not forget it. -/
theorem origin?_of_answer {s : Step} (hs : ∀ o', ¬ r.Parses s o')
    (h : (r.answer s.root s.request).1.origin? = some o) : r.origin? = some o := by
  obtain ⟨root, q⟩ := s
  have hdoes := r.does_answer root q
  generalize (r.answer root q).1 = after at hdoes h
  cases hdoes with
  | fail => exact h
  | parse hreads hparses => exact absurd ⟨_, hreads, hparses⟩ (hs _)
  | remember => exact h
  | reload horigin => rwa [horigin]
  | clear => simp [origin?] at h

/-! ### A run of requests -/

/-- The registry after a run of requests, made to an empty one. -/
def run (steps : List Step) : Registry :=
  steps.foldl (fun r s => (r.answer s.root s.request).1) {}

theorem run_concat (steps : List Step) (s : Step) :
    run (steps ++ [s]) = ((run steps).answer s.root s.request).1 := by
  rw [run, List.foldl_append]
  rfl

/-- After the steps, the load that brought the origin is the last one that was parsed. -/
def LastParsed (steps : List Step) (o : Origin) : Prop :=
  ∃ before s after, steps = before ++ s :: after ∧ (run before).Parses s o ∧
    ∀ mid u rest, after = mid ++ u :: rest → ∀ o', ¬ (run (before ++ s :: mid)).Parses u o'

theorem LastParsed.concat (h : LastParsed steps o) {s : Step}
    (hs : ∀ o', ¬ (run steps).Parses s o') : LastParsed (steps ++ [s]) o := by
  obtain ⟨before, t, after, rfl, hparses, hlater⟩ := h
  refine ⟨before, t, after ++ [s], by simp, hparses, fun mid u rest heq o' => ?_⟩
  rcases List.eq_nil_or_concat rest with rfl | ⟨rest, v, rfl⟩
  · obtain ⟨rfl, hsu⟩ := List.append_inj' heq rfl
    obtain rfl : s = u := by simpa using hsu
    exact hs o'
  · rw [List.concat_eq_append, ← List.cons_append, ← List.append_assoc] at heq
    exact hlater mid u rest (List.append_inj' heq rfl).1 o'

/-- **The origin is that of the last load that was parsed.** -/
theorem lastParsed_of_origin? (h : (run steps).origin? = some o) : LastParsed steps o := by
  induction steps using List.reverseRecOn generalizing o with
  | nil => simp [run, origin?] at h
  | append_singleton steps s ih =>
    rw [run_concat] at h
    by_cases hs : ∃ o', (run steps).Parses s o'
    · obtain ⟨o', hparses⟩ := hs
      obtain rfl : o' = o := Option.some.inj ((origin?_answer_of_parses hparses).symm.trans h)
      exact ⟨steps, s, [], rfl, hparses, by simp⟩
    · have hs' : ∀ o', ¬ (run steps).Parses s o' := fun o' ho' => hs ⟨o', ho'⟩
      exact (ih (origin?_of_answer hs' h)).concat hs'

/-- **When the origin is that of the load just made.** A load that finds its text is answered with a
document. Its origin is there afterwards exactly if it is forced, or its text was not at hand, or
that very origin was there before. In any case the origin is that of the last load that was
parsed. -/
theorem origin?_run_load_iff (steps : List Step) (h : q.Reads root o source) :
    (∃ d, ((run steps).answer root q).2 = .ok (some d)) ∧
    ((run (steps ++ [⟨root, q⟩])).origin? = some o ↔
      q.isForced = true ∨ (run steps).holds source = false ∨ (run steps).origin? = some o) ∧
    ∀ o', (run (steps ++ [⟨root, q⟩])).origin? = some o' →
      LastParsed (steps ++ [⟨root, q⟩]) o' := by
  refine ⟨exists_document_of_reads _ h, ?_, fun o' => lastParsed_of_origin?⟩
  rw [run_concat, ← or_assoc]
  by_cases hparses : q.isForced = true ∨ (run steps).holds source = false
  · exact iff_of_true (origin?_answer_of_parses ⟨source, h, hparses⟩) (.inl hparses)
  · obtain ⟨hforced, hholds⟩ := not_or.1 hparses
    rw [origin?_answer_of_remember h (by simpa using hforced) (by simpa using hholds)]
    exact ⟨.inr, fun hor => hor.resolve_left hparses⟩

/-- One schema file, for the examples. -/
def oneFile : Node := .directory [("s.prisma", .file (some "enum R { A }"))]

/-- A file whose text is not at hand becomes the origin. -/
theorem origin?_run_other_text :
    (run [⟨oneFile, .load "" false⟩, ⟨oneFile, .loadPath "s.prisma" ["prisma"]⟩]).origin? =
      some (.path "s.prisma" ["prisma"]) := by
  have hreads : (Request.loadPath "s.prisma" ["prisma"]).Reads oneFile
      (.path "s.prisma" ["prisma"]) "enum R { A }" := .path rfl
  exact (origin?_run_load_iff [⟨oneFile, .load "" false⟩] hreads).2.1.2 (.inr (.inl rfl))

/-- A file whose text is at hand already does not: the origin stays the text, and a reload will not
see the file. -/
theorem origin?_run_same_text :
    (Request.loadPath "s.prisma" ["prisma"]).Reads oneFile (.path "s.prisma" ["prisma"])
      "enum R { A }" ∧
    (run [⟨oneFile, .load "enum R { A }" false⟩,
      ⟨oneFile, .loadPath "s.prisma" ["prisma"]⟩]).origin? = some (.text "enum R { A }") :=
  ⟨.path rfl, rfl⟩

end Registry

end Sieve.Source
