import Mathlib
import Sieve.Command.Run
import Sieve.Proofs.Json.SafeMerging

/-!
# Parameters in layers

The parameters of a request come in layers: those of each file in turn, and over them those of the
query string. They are laid over one another as JSON objects, starting from an empty one. So at
every point of the run there is an object without unsafe keys, and a request whose files all read
well has parameters.

## Main results

* `Filter.Params.exists_layered_eq_object` — documents in layers are an object without unsafe keys
* `Filter.Params.layered_map_sanitizeEntries` — unsafe keys in the documents make no difference
* `Command.collectParameters_eq_ok_iff` — when a request has parameters, and which
* `Command.isSafe_collectParameters_and_isSafe_merge` — they have no unsafe key
-/

namespace Sieve

namespace Filter.Params

/-! ### Documents in layers -/

/-- One more document, laid over an object without unsafe keys. -/
theorem exists_merge_eq_object {entries : Params} (h : (Json.object entries).isSafe = true)
    (document : Params) :
    ∃ merged, (Json.object entries).merge (.object document) = .object merged ∧
      (Json.object merged).isSafe = true :=
  ⟨_, Json.merge_object_object h, Json.isSafe_mergeEntries h document⟩

/-- A run of documents, laid over an object without unsafe keys. -/
theorem exists_foldl_merge_eq_object {entries : Params} (h : (Json.object entries).isSafe = true)
    (documents : List Params) :
    ∃ merged, documents.foldl (fun v ps => v.merge (.object ps)) (Json.object entries) =
      .object merged ∧ (Json.object merged).isSafe = true := by
  induction documents generalizing entries with
  | nil => exact ⟨entries, rfl, h⟩
  | cons document documents ih =>
    obtain ⟨merged, hmerge, hsafe⟩ := exists_merge_eq_object h document
    rw [List.foldl_cons, hmerge]
    exact ih hsafe

/-- **Documents in layers are an object without unsafe keys.** -/
theorem exists_layered_eq_object (documents : List Params) :
    ∃ params, layered documents = .object params ∧ (Json.object params).isSafe = true :=
  exists_foldl_merge_eq_object (Json.isSafe_object.2 (List.forall_mem_nil _)) documents

theorem ofLayers_eq_iff {documents : List Params} {params : Params} :
    ofLayers documents = params ↔ layered documents = .object params := by
  obtain ⟨merged, hmerged, -⟩ := exists_layered_eq_object documents
  rw [ofLayers, hmerged, Json.object.injEq]

/-- **Unsafe keys in the documents make no difference.** -/
theorem layered_map_sanitizeEntries (documents : List Params) :
    layered (documents.map Json.sanitizeEntries) = layered documents := by
  have hstep : ∀ (v : Json) (ps : Params),
      v.merge (.object (Json.sanitizeEntries ps)) = v.merge (.object ps) := fun v ps => by
    rw [← Json.merge_sanitize v (.object ps), Json.sanitize]
  rw [layered, List.foldl_map]
  simp only [hstep, layered]

end Filter.Params

namespace Command

open Sieve.Filter (Params)

/-! ### The parameters of a request -/

/-- All steps succeed if each of them does. -/
theorem mapM_eq_ok_iff {α β ε : Type} {f : α → Except ε β} {xs : List α} {ys : List β} :
    xs.mapM f = .ok ys ↔ List.Forall₂ (fun x y => f x = .ok y) xs ys := by
  induction xs generalizing ys with
  | nil => cases ys <;> simp [pure, Except.pure]
  | cons x xs ih =>
    rw [List.mapM_cons]
    cases hx : f x with
    | error e => cases ys <;> simp [bind, Except.bind, hx]
    | ok y =>
      cases hxs : xs.mapM f with
      | error e => cases ys <;> simp [bind, Except.bind, hx, hxs, ← ih]
      | ok zs => cases ys <;> simp [bind, Except.bind, pure, Except.pure, hx, hxs, ← ih]

/-- **When a request has parameters, and which.** Something must be given, and every file must read
well. -/
theorem collectParameters_eq_ok_iff {w : World} {o : FilterOptions} {params : Params} :
    collectParameters w o = .ok params ↔ (o.parameters ≠ [] ∨ o.query.isSome = true) ∧
      ∃ documents, List.Forall₂ (fun path ps => readParameters w path = .ok ps)
          o.parameters documents ∧
        Params.layered (documents ++ (o.query.map Params.ofQueryString).toList) =
          .object params := by
  have hgiven : (o.parameters.isEmpty && o.query.isNone) = false ↔
      o.parameters ≠ [] ∨ o.query.isSome = true := by
    cases o.parameters <;> cases o.query <;> simp
  rw [← hgiven, collectParameters]
  cases o.parameters.isEmpty && o.query.isNone with
  | true => simp [throw, throwThe, MonadExceptOf.throw, bind, Except.bind]
  | false =>
    simp only [← mapM_eq_ok_iff, ← Params.ofLayers_eq_iff]
    cases o.parameters.mapM (readParameters w) with
    | error e => simp [bind, Except.bind]
    | ok documents => simp [bind, Except.bind, pure, Except.pure]

/-- **Parameters in layers have no unsafe key.** -/
theorem isSafe_collectParameters_and_isSafe_merge :
    (∀ (documents : List Params) (query : Option String), ∃ params,
      Params.layered (documents ++ (query.map Params.ofQueryString).toList) = .object params ∧
        (Json.object params).isSafe = true) ∧
    (∀ (w : World) (o : FilterOptions) (params : Params), collectParameters w o = .ok params ↔
      (o.parameters ≠ [] ∨ o.query.isSome = true) ∧
        ∃ documents, List.Forall₂ (fun path ps => readParameters w path = .ok ps)
            o.parameters documents ∧
          Params.layered (documents ++ (o.query.map Params.ofQueryString).toList) =
            .object params) ∧
    (∀ (w : World) (o : FilterOptions) (params : Params), collectParameters w o = .ok params →
      (Json.object params).isSafe = true) ∧
    (∀ target source : Json, target.isSafe = true → (target.merge source).isSafe = true) := by
  refine ⟨fun _ _ => Params.exists_layered_eq_object _, fun _ _ _ => collectParameters_eq_ok_iff,
    fun w o params h => ?_, fun _ source h => Json.isSafe_merge h source⟩
  obtain ⟨-, documents, -, hlayered⟩ := collectParameters_eq_ok_iff.1 h
  obtain ⟨merged, hmerged, hsafe⟩ :=
    Params.exists_layered_eq_object (documents ++ (o.query.map Params.ofQueryString).toList)
  rwa [← hlayered, hmerged]

theorem isSafe_collectParameters_and_isSafe_merge_users :
    (Json.object [("user", .array [.string "Bob", .string "Eve"])]).isSafe = true ∧
    ((Json.object [("users", .array [.null])]).merge (.object [("__proto__", .null), ("users",
      .array [.array [.object [("constructor", .null), ("name", .string "Ada")]]])])).isSafe =
        true :=
  ⟨isSafe_collectParameters_and_isSafe_merge.2.2.1 ⟨.directory [], []⟩
      ⟨⟨none, none⟩, some "user=Bob&prototype=1&user=Eve", [], none, none, none, false⟩ _ (by cbv),
    isSafe_collectParameters_and_isSafe_merge.2.2.2 _ _ (by decide)⟩

end Command

end Sieve
