import Sieve.Proofs.Source.Origins

/-!
# What a registry answers with

Whether a document comes from memory or is parsed anew cannot be told from the document: it is
always that of the very text that was asked for, as it is now. A request that finds no text is
answered with the reason, and leaves the registry alone.

The registry compares texts. One that keeps a digest in place of the text does the same, as long as
no two of the texts that it loads have one digest. Which texts these are is a matter of the whole
run: those that were given, and those that were read from files on the way.

## Main definitions

* `Registry.text?` — the text that a request asks for
* `Registry.afterLoading` — the registry once that text is loaded
* `Registry.Coherent` — the document at hand belongs to its text, and the text to its origin
* `Registry.loaded` — the texts that a run of requests loads
* `Digests` — a registry that keeps digests of texts

## Main results

* `Registry.answer_eq` — one request, by the text that it asks for
* `Registry.Loads.coherent` — loading a text keeps documents, texts and origins together
* `Registry.coherent_run`, `Registry.hits_add_misses_run` — a run of requests
* `Digests.answer_ofRegistry`, `Digests.run_eq` — the same with digests
* `Registry.answer_run` — what every request of a run is answered with
-/

namespace Sieve.Source

open Sieve.Files Sieve.Schema

namespace Registry

variable {r after : Registry} {root : Node} {q : Request} {source : String} {steps : List Step}

/-! ### One request -/

/-- The text that a request asks for, as it is now, or the reason why there is none. Clearing asks
for no text. -/
def text? (r : Registry) (root : Node) : Request → Except LoadError (Option String)
  | .load source _ => .ok (some source)
  | .loadPath path extensions => (readSource root path extensions).map some
  | .reload =>
    match r.origin? with
    | none => .error .nothingLoaded
    | some origin => (readOrigin root origin).map some
  | .clear => .ok none

/-- The registry once a request has loaded its text. -/
def afterLoading (r : Registry) (source : String) : Request → Registry
  | .load _ forced =>
    if forced then r.store (.text source) source else r.fetch (.text source) source
  | .loadPath path extensions => r.fetch (.path path extensions) source
  | .reload => r.origin?.elim r fun origin => r.store origin source
  | .clear => r

/-- **One request, by the text that it asks for.** Without a text, nothing changes. -/
theorem answer_eq (r : Registry) (root : Node) (q : Request) :
    r.answer root q = match r.text? root q with
      | .error e => (r, .error e)
      | .ok none => ({ r with held := none }, .ok none)
      | .ok (some source) => (r.afterLoading source q, .ok (r.afterLoading source q).current?) := by
  cases q with
  | load source forced => rfl
  | loadPath path extensions =>
    rw [answer, apply, text?]
    cases readSource root path extensions <;> rfl
  | reload =>
    rw [answer, apply, text?]
    cases horigin : r.origin? with
    | none => rfl
    | some origin =>
      cases hread : readOrigin root origin with
      | error e => simp [Except.map, hread]
      | ok source => simp [Except.map, hread, afterLoading, horigin]
  | clear => rfl

/-- What loading a text may do: parse it, or find it at hand. -/
inductive Loads (r : Registry) (source : String) : Registry → Prop where
  | parse (o : Origin) (ho : ∀ given, o = .text given → given = source) :
    Loads r source (r.store o source)
  | remember (h : r.holds source = true) : Loads r source { r with hits := r.hits + 1 }

theorem loads_fetch (r : Registry) {o : Origin} (ho : ∀ given, o = .text given → given = source) :
    r.Loads source (r.fetch o source) := by
  cases h : r.holds source with
  | true =>
    rw [fetch_of_holds h]
    exact .remember h
  | false =>
    rw [fetch_of_not_holds h]
    exact .parse o ho

/-- **A request that finds its text loads it.** -/
theorem loads_afterLoading (h : r.text? root q = .ok (some source)) :
    r.Loads source (r.afterLoading source q) := by
  have hgiven : ∀ given, Origin.text source = .text given → given = source := by
    rintro _ ⟨⟩
    rfl
  cases q with
  | load given forced =>
    cases forced with
    | true => exact .parse _ hgiven
    | false => exact loads_fetch r hgiven
  | loadPath path extensions => exact loads_fetch r (by simp)
  | reload =>
    rw [text?] at h
    cases horigin : r.origin? with
    | none => simp [horigin] at h
    | some origin =>
      rw [afterLoading, horigin]
      refine .parse origin ?_
      rintro given rfl
      simpa [horigin, readOrigin, Except.map] using h
  | clear => simp [text?] at h

/-- The document at hand is that of its text, and if its origin is a text, it is that one. -/
structure Coherent (r : Registry) : Prop where
  document_eq : ∀ h ∈ r.held, h.document = .parse h.source
  source_eq : ∀ h ∈ r.held, ∀ given, h.origin = .text given → given = h.source

/-- **Loading a text keeps documents, texts and origins together**, whether or not it is parsed. -/
theorem Loads.coherent (h : r.Loads source after) (hr : r.Coherent) : after.Coherent := by
  cases h with
  | parse o ho =>
    constructor
    · rintro _ ⟨⟩
      rfl
    · rintro _ ⟨⟩
      exact ho
  | remember _ => exact ⟨hr.document_eq, hr.source_eq⟩

theorem Loads.current? (h : r.Loads source after) (hr : r.Coherent) :
    after.current? = some (.parse source) := by
  cases h with
  | parse o _ => rfl
  | remember hholds =>
    obtain ⟨held, hheld, hsource⟩ := (Option.any_eq_true _ _).1 hholds
    rw [Registry.current?, hheld, Option.map_some, hr.document_eq held hheld, eq_of_beq hsource]

theorem Loads.hits_add_misses (h : r.Loads source after) :
    after.hits + after.misses = r.hits + r.misses + 1 := by
  cases h with
  | parse o _ => rfl
  | remember _ =>
    show r.hits + 1 + r.misses = r.hits + r.misses + 1
    omega

/-- The text at hand afterwards is the one that was loaded. -/
theorem Loads.source_eq (h : r.Loads source after) : ∀ held ∈ after.held, held.source = source := by
  cases h with
  | parse o _ =>
    rintro _ ⟨⟩
    rfl
  | remember hholds =>
    obtain ⟨held, hheld, hsource⟩ := (Option.any_eq_true _ _).1 hholds
    intro held' hheld'
    obtain rfl : held = held' := Option.some.inj (hheld.symm.trans hheld')
    exact eq_of_beq hsource

/-! ### A run of requests -/

/-- The text that a request loads, if any. -/
def loads (r : Registry) (s : Step) : List String :=
  match r.text? s.root s.request with
  | .ok (some source) => [source]
  | _ => []

/-- The texts that a run of requests loads, from a registry on. -/
def loadedFrom (r : Registry) : List Step → List String
  | [] => []
  | s :: steps => r.loads s ++ loadedFrom (r.answer s.root s.request).1 steps

/-- The texts that a run of requests loads: one for each load or reload that is answered with a
document. -/
def loaded (steps : List Step) : List String := loadedFrom {} steps

theorem loaded_concat (steps : List Step) (s : Step) :
    loaded (steps ++ [s]) = loaded steps ++ (run steps).loads s := by
  suffices hfrom : ∀ r : Registry, loadedFrom r (steps ++ [s]) = loadedFrom r steps ++
      (steps.foldl (fun r s => (r.answer s.root s.request).1) r).loads s from hfrom {}
  induction steps with
  | nil => intro r; simp [loadedFrom]
  | cons t steps ih =>
    intro r
    rw [List.cons_append, loadedFrom, loadedFrom, ih, List.append_assoc]
    rfl

/-- What a step does to the registry: nothing, forgetting, or loading the text that it asks for. -/
theorem answer_cases (r : Registry) (s : Step) :
    (∃ e, r.text? s.root s.request = .error e ∧ r.loads s = [] ∧
      (r.answer s.root s.request).1 = r) ∨
    (r.text? s.root s.request = .ok none ∧ r.loads s = [] ∧
      (r.answer s.root s.request).1 = { r with held := none }) ∨
    ∃ source, r.text? s.root s.request = .ok (some source) ∧ r.loads s = [source] ∧
      r.Loads source (r.answer s.root s.request).1 := by
  rw [loads, answer_eq]
  match h : r.text? s.root s.request with
  | .error e => exact .inl ⟨e, rfl, rfl, rfl⟩
  | .ok none => exact .inr (.inl ⟨rfl, rfl, rfl⟩)
  | .ok (some source) => exact .inr (.inr ⟨source, rfl, rfl, loads_afterLoading h⟩)

theorem coherent_run (steps : List Step) : (run steps).Coherent := by
  induction steps using List.reverseRecOn with
  | nil => exact ⟨by simp [run], by simp [run]⟩
  | append_singleton steps s ih =>
    rw [run_concat]
    obtain ⟨e, -, -, heq⟩ | ⟨-, -, heq⟩ | ⟨source, -, -, hloads⟩ := answer_cases (run steps) s
    · rwa [heq]
    · rw [heq]
      exact ⟨by simp, by simp⟩
    · exact hloads.coherent ih

/-- **Every load is counted once**, as found at hand or as parsed. -/
theorem hits_add_misses_run (steps : List Step) :
    (run steps).hits + (run steps).misses = (loaded steps).length := by
  induction steps using List.reverseRecOn with
  | nil => rfl
  | append_singleton steps s ih =>
    rw [run_concat, loaded_concat, List.length_append, ← ih]
    obtain ⟨e, -, hloads, heq⟩ | ⟨-, hloads, heq⟩ | ⟨source, -, hloads, hafter⟩ :=
      answer_cases (run steps) s
    · rw [heq, hloads]
      rfl
    · rw [heq, hloads]
      rfl
    · rw [hafter.hits_add_misses, hloads]
      rfl

/-- The text at hand is one of those that were loaded. -/
theorem source_mem_loaded (steps : List Step) :
    ∀ h ∈ (run steps).held, h.source ∈ loaded steps := by
  induction steps using List.reverseRecOn with
  | nil => simp [run]
  | append_singleton steps s ih =>
    rw [run_concat, loaded_concat]
    intro held hheld
    obtain ⟨e, -, -, heq⟩ | ⟨-, -, heq⟩ | ⟨source, -, hloads, hafter⟩ := answer_cases (run steps) s
    · rw [heq] at hheld
      exact List.mem_append_left _ (ih held hheld)
    · rw [heq] at hheld
      cases hheld
    · rw [hloads, hafter.source_eq held hheld]
      simp

end Registry

/-! ### Digests in place of texts -/

/-- A registry that keeps a digest in place of the text it parsed. -/
structure Digests where
  held : Option (UInt64 × Origin × Document) := none
  hits : Nat := 0
  misses : Nat := 0

namespace Digests

variable (digest : String → UInt64) {r : Registry} {root : Node} {q : Request} {source : String}
  {steps : List Step}

/-- Where the document at hand came from. -/
def origin? (d : Digests) : Option Origin := d.held.map fun h => h.2.1

/-- The document at hand. -/
def current? (d : Digests) : Option Document := d.held.map fun h => h.2.2

/-- Parses a text and holds its document. -/
def store (d : Digests) (origin : Origin) (source : String) : Digests :=
  { d with held := some (digest source, origin, .parse source), misses := d.misses + 1 }

/-- Loads a text: the document at hand is kept if its text had the same digest. -/
def fetch (d : Digests) (origin : Origin) (source : String) : Digests :=
  if d.held.any fun h => h.1 == digest source then { d with hits := d.hits + 1 }
  else d.store digest origin source

/-- What a request does. -/
def apply (root : Node) (d : Digests) : Request → Except LoadError Digests
  | .load source forced =>
    .ok (if forced then d.store digest (.text source) source
      else d.fetch digest (.text source) source)
  | .loadPath path extensions =>
    (readSource root path extensions).map (d.fetch digest (.path path extensions))
  | .reload =>
    match d.origin? with
    | none => .error .nothingLoaded
    | some origin => (Registry.readOrigin root origin).map (d.store digest origin)
  | .clear => .ok { d with held := none }

/-- The registry after a request, and the document that answers it. -/
def answer (root : Node) (d : Digests) (q : Request) :
    Digests × Except LoadError (Option Document) :=
  match d.apply digest root q with
  | .ok e => (e, .ok e.current?)
  | .error e => (d, .error e)

/-- The registry after a run of requests, made to an empty one. -/
def run (steps : List Step) : Digests :=
  steps.foldl (fun d s => (d.answer digest s.root s.request).1) {}

/-- The registry with a digest in place of its text. -/
def ofRegistry (r : Registry) : Digests :=
  ⟨r.held.map fun h => (digest h.source, h.origin, h.document), r.hits, r.misses⟩

variable {digest}

theorem origin?_ofRegistry (r : Registry) : (ofRegistry digest r).origin? = r.origin? := by
  rw [origin?, ofRegistry, Option.map_map]
  rfl

theorem current?_ofRegistry (r : Registry) : (ofRegistry digest r).current? = r.current? := by
  rw [current?, ofRegistry, Option.map_map]
  rfl

/-- No text is taken for the one at hand because of its digest. -/
def Distinguishes (digest : String → UInt64) (r : Registry) (source : String) : Prop :=
  ∀ held ∈ r.held, digest held.source = digest source → held.source = source

theorem any_ofRegistry (h : Distinguishes digest r source) :
    (ofRegistry digest r).held.any (fun held => held.1 == digest source) = r.holds source := by
  rw [ofRegistry, Registry.holds]
  cases hheld : r.held with
  | none => rfl
  | some held =>
    show (digest held.source == digest source) = (held.source == source)
    rw [Bool.eq_iff_iff, beq_iff_eq, beq_iff_eq]
    exact ⟨h held hheld, congrArg digest⟩

theorem fetch_ofRegistry (o : Origin) (h : Distinguishes digest r source) :
    (ofRegistry digest r).fetch digest o source = ofRegistry digest (r.fetch o source) := by
  rw [fetch, any_ofRegistry h]
  cases hholds : r.holds source with
  | true =>
    rw [Registry.fetch_of_holds hholds]
    rfl
  | false =>
    rw [Registry.fetch_of_not_holds hholds]
    rfl

theorem apply_ofRegistry
    (h : ∀ source, r.text? root q = .ok (some source) → Distinguishes digest r source) :
    (ofRegistry digest r).apply digest root q = (r.apply root q).map (ofRegistry digest) := by
  cases q with
  | load source forced =>
    cases forced with
    | true => rfl
    | false => exact congrArg Except.ok (fetch_ofRegistry _ (h source rfl))
  | loadPath path extensions =>
    rw [apply, Registry.apply]
    cases hread : readSource root path extensions with
    | error e => rfl
    | ok source =>
      have htext : r.text? root (.loadPath path extensions) = .ok (some source) := by
        rw [Registry.text?, hread]
        rfl
      exact congrArg Except.ok (fetch_ofRegistry _ (h source htext))
  | reload =>
    rw [apply, Registry.apply, origin?_ofRegistry]
    cases r.origin? with
    | none => rfl
    | some origin => cases hread : Registry.readOrigin root origin <;> simp [hread, Except.map]; rfl
  | clear => rfl

/-- **One request**, where the digest of the text is not that of another one at hand. -/
theorem answer_ofRegistry
    (h : ∀ source, r.text? root q = .ok (some source) → Distinguishes digest r source) :
    (ofRegistry digest r).answer digest root q =
      (ofRegistry digest (r.answer root q).1, (r.answer root q).2) := by
  rw [answer, apply_ofRegistry h, Registry.answer]
  cases r.apply root q with
  | error e => rfl
  | ok after => exact congrArg (fun d => (_, Except.ok d)) (current?_ofRegistry after)

/-- No two of the texts have the same digest. -/
def Apart (digest : String → UInt64) (texts : List String) : Prop :=
  ∀ s ∈ texts, ∀ t ∈ texts, digest s = digest t → s = t

theorem Apart.of_concat {s : Step} (h : Apart digest (Registry.loaded (steps ++ [s]))) :
    Apart digest (Registry.loaded steps) := by
  rw [Registry.loaded_concat] at h
  intro a ha b hb
  exact h a (List.mem_append_left _ ha) b (List.mem_append_left _ hb)

theorem Apart.distinguishes {s : Step} (h : Apart digest (Registry.loaded (steps ++ [s]))) :
    ∀ source, (Registry.run steps).text? s.root s.request = .ok (some source) →
      Distinguishes digest (Registry.run steps) source := by
  intro source hsource held hheld
  rw [Registry.loaded_concat, Registry.loads, hsource] at h
  refine h held.source ?_ source (by simp)
  exact List.mem_append_left _ (Registry.source_mem_loaded steps held hheld)

/-- **A run of requests**, where no two of the texts that are loaded have the same digest. -/
theorem run_eq (h : Apart digest (Registry.loaded steps)) :
    run digest steps = ofRegistry digest (Registry.run steps) := by
  induction steps using List.reverseRecOn with
  | nil => rfl
  | append_singleton steps s ih =>
    have hlast : run digest (steps ++ [s]) =
        ((run digest steps).answer digest s.root s.request).1 := by
      rw [run, List.foldl_append]
      rfl
    rw [hlast, ih h.of_concat, answer_ofRegistry h.distinguishes, Registry.run_concat]

end Digests

/-! ### All requests of a run -/

namespace Registry

variable {r : Registry} {root : Node} {q : Request} {source : String} {steps : List Step} {s : Step}

/-- The answer is the document of the text that was asked for. -/
theorem snd_answer_eq (hr : r.Coherent) (root : Node) (q : Request) :
    (r.answer root q).2 = (r.text? root q).map (Option.map Document.parse) := by
  rw [answer_eq]
  match h : r.text? root q with
  | .error e => rfl
  | .ok none => rfl
  | .ok (some source) => exact congrArg Except.ok ((loads_afterLoading h).current? hr)

theorem current?_run_concat (h : (run steps).text? s.root s.request = .ok (some source)) :
    (run (steps ++ [s])).current? = some (.parse source) := by
  rw [run_concat, answer_eq, h]
  exact (loads_afterLoading h).current? (coherent_run steps)

theorem run_concat_of_error {e : LoadError}
    (h : ((run steps).answer s.root s.request).2 = .error e) : run (steps ++ [s]) = run steps := by
  rw [answer_eq] at h
  rw [run_concat, answer_eq]
  match htext : (run steps).text? s.root s.request with
  | .error e => rfl
  | .ok none => simp [htext] at h
  | .ok (some source) => simp [htext] at h

theorem Coherent.current?_of_origin? (hr : r.Coherent) (h : r.origin? = some (.text source)) :
    r.current? = some (.parse source) := by
  obtain ⟨held, hheld, horigin⟩ := Option.map_eq_some_iff.1 h
  rw [Registry.current?, hheld, Option.map_some, hr.document_eq held hheld,
    hr.source_eq held hheld source horigin]

/-- **What every request of a run is answered with.** A load or a reload that finds its text is
answered with the document of that text, which is at hand from then on; one that finds no text is
answered with the reason, and changes nothing. If the document at hand came from a text, it is the
document of that text. Every load that is answered with a document is counted once. And a registry
that compares digests gives the same answers in the same states, as long as no two of the texts that
are loaded have the same digest. -/
theorem answer_run (steps : List Step) (s : Step) :
    ((run steps).answer s.root s.request).2 =
      ((run steps).text? s.root s.request).map (Option.map Document.parse) ∧
    (∀ source, (run steps).text? s.root s.request = .ok (some source) →
      (run (steps ++ [s])).current? = some (.parse source)) ∧
    (∀ e, ((run steps).answer s.root s.request).2 = .error e → run (steps ++ [s]) = run steps) ∧
    (∀ source, (run steps).origin? = some (.text source) →
      (run steps).current? = some (.parse source)) ∧
    (run steps).hits + (run steps).misses = (loaded steps).length ∧
    ∀ digest : String → UInt64, Digests.Apart digest (loaded (steps ++ [s])) →
      Digests.run digest steps = .ofRegistry digest (run steps) ∧
      (Digests.run digest steps).answer digest s.root s.request =
        (.ofRegistry digest (run (steps ++ [s])), ((run steps).answer s.root s.request).2) := by
  refine ⟨snd_answer_eq (coherent_run steps) s.root s.request, fun source => current?_run_concat,
    fun e => run_concat_of_error, fun source => (coherent_run steps).current?_of_origin?,
    hits_add_misses_run steps, fun digest hapart => ?_⟩
  have hrun : Digests.run digest steps = .ofRegistry digest (run steps) :=
    Digests.run_eq hapart.of_concat
  refine ⟨hrun, ?_⟩
  rw [hrun, Digests.answer_ofRegistry (hapart.distinguishes), run_concat]

/-- The file of `oneFile` once it is edited. -/
def editedFile : Node := .directory [("s.prisma", .file (some "enum S { B }"))]

/-- A digest that takes every character into account. -/
def polynomialDigest (s : String) : UInt64 :=
  s.toList.foldl (fun d c => 31 * d + c.val.toUInt64) 7

theorem answer_run_editedFile :
    (run [⟨oneFile, .loadPath "s.prisma" ["prisma"]⟩, ⟨editedFile, .reload⟩]).current? =
      some (.parse "enum S { B }") ∧
    run [⟨oneFile, .loadPath "s.prisma" ["prisma"]⟩, ⟨oneFile, .loadPath "t.prisma" ["prisma"]⟩] =
      run [⟨oneFile, .loadPath "s.prisma" ["prisma"]⟩] ∧
    ((Digests.run polynomialDigest [⟨oneFile, .loadPath "s.prisma" ["prisma"]⟩]).answer
      polynomialDigest editedFile .reload).2 =
        ((run [⟨oneFile, .loadPath "s.prisma" ["prisma"]⟩]).answer editedFile .reload).2 := by
  have hedited := answer_run [⟨oneFile, .loadPath "s.prisma" ["prisma"]⟩] ⟨editedFile, .reload⟩
  have hmissing := answer_run [⟨oneFile, .loadPath "s.prisma" ["prisma"]⟩]
    ⟨oneFile, .loadPath "t.prisma" ["prisma"]⟩
  have hloaded : loaded [⟨oneFile, .loadPath "s.prisma" ["prisma"]⟩, ⟨editedFile, .reload⟩] =
      ["enum R { A }", "enum S { B }"] := rfl
  have hapart : Digests.Apart polynomialDigest
      (loaded [⟨oneFile, .loadPath "s.prisma" ["prisma"]⟩, ⟨editedFile, .reload⟩]) := by
    rw [hloaded]
    unfold Digests.Apart
    decide +kernel
  refine ⟨hedited.2.1 _ rfl, hmissing.2.2.1 (.notFound "t.prisma") rfl, ?_⟩
  rw [(hedited.2.2.2.2.2 polynomialDigest hapart).2]

end Registry

end Sieve.Source
