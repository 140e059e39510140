import Mathlib.Data.List.Nodup
import Mathlib.Data.List.Perm.Basic
import Sieve.Proofs.Files.Listings
import Sieve.Proofs.Schema.JoinedTexts
import Sieve.Proofs.Source.FoundFiles

/-!
# Schema files in any listing

The schema made of a directory does not hang on the order in which directories list their entries.
In trees that differ in these orders only, the walk finds the same files, each by a path of its own,
in some order. Paths are in a linear order, so that sorting leaves one order for both trees.

What the schema is made of is then told without any walk: the files that the directory holds, in the
order of their names, with the extension that is asked for and outside of `migrations`.

## Main definitions

* `SameFiles` — the same files up to their order, each once

## Main results

* `SameFiles.filesBelow` — the walk in two listings of one directory
* `schemaFiles_eq_of_relisted` — the schema files are the same
* `mem_schemaFiles_iff`, `pairwise_schemaFiles` — which they are, and in which order
* `collect_eq_of_relisted`, `readSource_eq_of_relisted` — the same is read in two listings of a tree
* `collect_eq_of_relisted_and_eq_joined` — and what that is
-/

namespace Sieve

/-! ### Entries in another order -/

namespace Entries

variable {α β γ : Type} {es : Entries α} {fs : Entries β}

/-- What is made of all entries, one after another, is made of their keys. -/
theorem flatMap_eq_flatMap_keys (hes : (keys es).Nodup) (f : String × α → List γ) :
    es.flatMap f =
      (keys es).flatMap fun key => ((get? es key).map fun v => f (key, v)).getD [] := by
  rw [keys, List.flatMap_map]
  refine List.flatMap_congr fun e he => ?_
  have hget : get? es e.1 = some e.2 := (mem_iff_get? hes).1 he
  rw [hget]
  rfl

/-- The same is made of entries with the same keys, up to order, if it is for each key. -/
theorem perm_flatMap (hes : (keys es).Nodup) (hkeys : (keys es).Perm (keys fs))
    {f : String × α → List γ} {g : String × β → List γ}
    (h : ∀ key v w, get? es key = some v → get? fs key = some w →
      (f (key, v)).Perm (g (key, w))) :
    (es.flatMap f).Perm (fs.flatMap g) := by
  rw [flatMap_eq_flatMap_keys hes f, flatMap_eq_flatMap_keys (hkeys.nodup_iff.1 hes) g]
  refine List.Perm.trans (List.Perm.flatMap_left _ fun key hkey => ?_)
    (List.Perm.flatMap_right _ hkeys)
  obtain ⟨v, hv⟩ := exists_get?_of_mem_keys hkey
  obtain ⟨w, hw⟩ := exists_get?_of_perm hkeys hv
  rw [hv, hw]
  exact h key v w hv hw

end Entries

namespace Source

open Sieve.Files

variable {n m : Node} {es fs : Entries Node} {path : String} {extensions : List String}

/-! ### The walk in two listings -/

/-- The files are the same up to their order, and each has a path of its own. -/
structure SameFiles (xs ys : List Found) : Prop where
  perm : xs.Perm ys
  nodup : (xs.map Prod.fst).Nodup

namespace SameFiles

variable {xs ys : List Found}

theorem singleton (f : Found) : SameFiles [f] [f] := ⟨.refl _, List.nodup_singleton _⟩

/-- A name in front of all paths keeps them apart. -/
theorem map_cons (h : SameFiles xs ys) (name : String) :
    SameFiles (xs.map fun f => (name :: f.1, f.2)) (ys.map fun f => (name :: f.1, f.2)) := by
  refine ⟨h.perm.map _, ?_⟩
  have hpaths : (xs.map fun f => (name :: f.1, f.2)).map Prod.fst =
      (xs.map Prod.fst).map (name :: ·) := by
    rw [List.map_map, List.map_map]
    rfl
  rw [hpaths]
  exact h.nodup.map fun _ _ heq => (List.cons.inj heq).2

/-- If the same files are found at every entry, the same are found below the directory: files at
different entries begin with different names. -/
theorem filesBelow_of_entries (distinct : (Entries.keys es).Nodup)
    (names : (Entries.keys es).Perm (Entries.keys fs))
    (h : ∀ name node node', Entries.get? es name = some node → Entries.get? fs name = some node' →
      SameFiles (filesAt (Path.join path name) name node)
        (filesAt (Path.join path name) name node')) :
    SameFiles (filesBelow path es) (filesBelow path fs) := by
  rw [filesBelow_eq_flatMap, filesBelow_eq_flatMap]
  constructor
  · exact Entries.perm_flatMap distinct names fun name node node' hnode hnode' =>
      (h name node node' hnode hnode').perm
  · rw [List.map_flatMap, List.nodup_flatMap]
    constructor
    · intro e he
      have hnode : Entries.get? es e.1 = some e.2 := (Entries.mem_iff_get? distinct).1 he
      obtain ⟨node', hnode'⟩ := Entries.exists_get?_of_perm names hnode
      exact (h e.1 e.2 node' hnode hnode').nodup
    · refine (List.pairwise_map.1 distinct).imp fun {e e'} hne => ?_
      intro path hpath hpath'
      obtain ⟨f, hf, rfl⟩ := List.mem_map.1 hpath
      obtain ⟨g, hg, heq⟩ := List.mem_map.1 hpath'
      obtain ⟨_, hf⟩ := exists_eq_cons_of_mem_filesAt hf
      obtain ⟨_, hg⟩ := exists_eq_cons_of_mem_filesAt hg
      rw [hf, hg] at heq
      exact hne (List.cons.inj heq).1.symm

theorem filesAt (h : n.Relisted m) (path name : String) :
    SameFiles (filesAt path name n) (filesAt path name m) := by
  induction h generalizing path name with
  | file text => exact singleton _
  | @directory es fs distinct names _ ih =>
    have hbelow : SameFiles (filesBelow path es) (filesBelow path fs) :=
      filesBelow_of_entries distinct names fun name node node' hnode hnode' =>
        ih name node node' hnode hnode' _ name
    rw [Source.filesAt, Source.filesAt]
    split
    · exact singleton _
    · split
      · exact ⟨.refl _, List.nodup_nil⟩
      · exact hbelow.map_cons name

/-- **The walk finds the same files** in every listing of a directory, and each of them once. -/
theorem filesBelow (h : Node.Relisted (.directory es) (.directory fs)) (path : String) :
    SameFiles (filesBelow path es) (filesBelow path fs) := by
  cases h with
  | directory distinct names nodes =>
    exact filesBelow_of_entries distinct names fun name node node' hnode hnode' =>
      filesAt (nodes name node node' hnode hnode') _ name

end SameFiles

/-! ### Schema files -/

/-- The schema files are some of those that the walk finds, in another order. -/
theorem perm_schemaFiles (extensions : List String) (path : String) (es : List (String × Node)) :
    (schemaFiles extensions path es).Perm
      ((filesBelow path es).filter fun f => f.1.getLast?.any (hasExtension extensions)) :=
  List.mergeSort_perm _ _

theorem nodup_schemaFiles (h : Node.Relisted (.directory es) (.directory fs))
    (extensions : List String) (path : String) :
    ((schemaFiles extensions path es).map Prod.fst).Nodup := by
  rw [((perm_schemaFiles extensions path es).map Prod.fst).nodup_iff]
  exact (SameFiles.filesBelow h path).nodup.sublist (List.filter_sublist.map _)

theorem pairwise_pathLe_schemaFiles (extensions : List String) (path : String)
    (entries : List (String × Node)) :
    (schemaFiles extensions path entries).Pairwise fun f g => pathLe f.1 g.1 = true := by
  have htrans : ∀ f g k : Found, pathLe f.1 g.1 = true → pathLe g.1 k.1 = true →
      pathLe f.1 k.1 = true := fun _ _ _ => pathLe_trans
  have htotal : ∀ f g : Found, (pathLe f.1 g.1 || pathLe g.1 f.1) = true := fun f g =>
    pathLe_total f.1 g.1
  exact List.pairwise_mergeSort htrans htotal _

/-- **The schema files are in the order of their paths**, each path once. -/
theorem pairwise_schemaFiles (h : Node.Relisted (.directory es) (.directory fs))
    (extensions : List String) (path : String) :
    ((schemaFiles extensions path es).map Prod.fst).Pairwise (List.Lex (· < ·)) := by
  have hle : ((schemaFiles extensions path es).map Prod.fst).Pairwise
      fun as bs => pathLe as bs = true :=
    List.pairwise_map.2 (pairwise_pathLe_schemaFiles extensions path es)
  exact (hle.and (nodup_schemaFiles h extensions path)).imp fun h => lex_of_pathLe h.1 h.2

/-- **The schema files are the same** in every listing of a directory. -/
theorem schemaFiles_eq_of_relisted (h : Node.Relisted (.directory es) (.directory fs))
    (extensions : List String) (path : String) :
    schemaFiles extensions path es = schemaFiles extensions path fs := by
  have hperm : (schemaFiles extensions path es).Perm (schemaFiles extensions path fs) := by
    have hfound := (SameFiles.filesBelow h path).perm.filter fun f =>
      f.1.getLast?.any (hasExtension extensions)
    exact (perm_schemaFiles extensions path es).trans
      (hfound.trans (perm_schemaFiles extensions path fs).symm)
  refine List.Perm.eq_of_pairwise ?_ (pairwise_pathLe_schemaFiles extensions path es)
    (pairwise_pathLe_schemaFiles extensions path fs) hperm
  intro f g hf hg hle hle'
  -- files that may stand in either order have one path, and no path is found twice
  exact List.inj_on_of_nodup_map (nodup_schemaFiles h extensions path) hf (hperm.mem_iff.2 hg)
    (pathLe_antisymm hle hle')

/-- **The schema files of a readable directory**: those that it holds, with one of the extensions
and in no directory that is left out. -/
theorem mem_schemaFiles_iff (h : (Node.directory es).ReadableAt path) (extensions : List String)
    (f : Found) :
    f ∈ schemaFiles extensions path es ↔ (Node.directory es).HoldsFile f.1 f.2 ∧
      skippedName ∉ f.1.dropLast ∧ ∃ name ∈ f.1.getLast?, HasListedExtension extensions name := by
  rw [(perm_schemaFiles extensions path es).mem_iff, List.mem_filter, mem_filesBelow_iff h,
    and_assoc, Option.any_eq_true]
  simp only [hasExtension_iff, Option.mem_def]

/-! ### Collected texts -/

variable {root root' : Node}

theorem collect_of_locate (h : root.locate path = .ok (.directory es)) (extensions : List String) :
    collect root path extensions =
      ((schemaFiles extensions path es).mapM (textOf path)).map "\n".intercalate := by
  rw [collect, h]

/-- **The same is collected** in every listing, failures included. -/
theorem collect_eq_of_relisted (h : root.Relisted root') (path : String)
    (extensions : List String) :
    collect root path extensions = collect root' path extensions := by
  have hlocate := h.locate path
  rw [collect, collect]
  generalize root.locate path = found at hlocate ⊢
  generalize root'.locate path = found' at hlocate ⊢
  cases hlocate with
  | error e => rfl
  | ok hnode =>
    cases hnode with
    | file text => rfl
    | @directory es fs distinct names nodes =>
      have hfiles := schemaFiles_eq_of_relisted (.directory distinct names nodes) extensions path
      show ((schemaFiles extensions path es).mapM (textOf path)).map "\n".intercalate = _
      rw [hfiles]

/-- **The same is read** in every listing, be it a file or a directory. -/
theorem readSource_eq_of_relisted (h : root.Relisted root') (path : String)
    (extensions : List String) :
    readSource root path extensions = readSource root' path extensions := by
  have hlocate := h.locate path
  rw [readSource, readSource, collect_eq_of_relisted h]
  generalize root.locate path = found at hlocate ⊢
  generalize root'.locate path = found' at hlocate ⊢
  cases hlocate with
  | error e => rfl
  | ok hnode =>
    cases hnode with
    | file text => cases text <;> rfl
    | directory _ _ _ => rfl

/-- Files that all have texts, as pairs of a path and a text. -/
theorem exists_eq_map_some {found : List Found} (h : ∀ f ∈ found, ∃ s, f.2 = some s) :
    ∃ files : List (List String × String), found = files.map fun p => (p.1, some p.2) := by
  induction found with
  | nil => exact ⟨[], rfl⟩
  | cons f found ih =>
    obtain ⟨⟨s, hs⟩, hrest⟩ := List.forall_mem_cons.1 h
    obtain ⟨files, rfl⟩ := ih hrest
    exact ⟨(f.1, s) :: files, by rw [List.map_cons, ← hs]⟩

theorem mem_map_some_iff {files : List (List String × String)} {names : List String}
    {text : String} :
    (names, some text) ∈ files.map (fun p => (p.1, some p.2)) ↔ (names, text) ∈ files := by
  simp

/-- The text collected from files that have texts. -/
theorem collect_of_schemaFiles_eq (h : root.locate path = .ok (.directory es))
    {files : List (List String × String)}
    (hfiles : schemaFiles extensions path es = files.map fun p => (p.1, some p.2)) :
    collect root path extensions = .ok ("\n".intercalate (files.map Prod.snd)) := by
  have htexts : (files.map fun p => (p.1, some p.2)).map Prod.snd =
      (files.map Prod.snd).map some := by
    rw [List.map_map, List.map_map]
    rfl
  rw [collect_of_locate h, hfiles, Schema.mapM_textOf htexts]
  rfl

/-- **The text of a directory is the same in any listing.** However the directories of a tree list
their entries, the same comes of collecting the schema files below a path, failures included. Where
everything below the directory can be read, it is the texts of exactly the files that the directory
holds by a name with one of the extensions, and in no directory named `migrations`, joined by line
breaks in the order of their paths. -/
theorem collect_eq_of_relisted_and_eq_joined (h : root.Relisted root') (path : String)
    (extensions : List String) :
    collect root path extensions = collect root' path extensions ∧
    ∀ entries, root.locate path = .ok (.directory entries) →
      (Node.directory entries).ReadableAt path →
      ∃ files : List (List String × String),
        (files.map Prod.fst).Pairwise (List.Lex (· < ·)) ∧
        (∀ names text, (names, text) ∈ files ↔
          (Node.directory entries).HoldsFile names (some text) ∧ "migrations" ∉ names.dropLast ∧
            ∃ name ∈ names.getLast?, HasListedExtension extensions name) ∧
        collect root path extensions = .ok ("\n".intercalate (files.map Prod.snd)) := by
  refine ⟨collect_eq_of_relisted h path extensions, ?_⟩
  intro entries hentries hreadable
  obtain ⟨node, -, hrelisted⟩ := (hentries ▸ h.locate path).exists_eq_ok
  have hmem := mem_schemaFiles_iff hreadable extensions
  obtain ⟨files, hfiles⟩ := exists_eq_map_some fun f hf =>
    hreadable.exists_text ((hmem f).1 hf).1
  refine ⟨files, ?_, ?_, collect_of_schemaFiles_eq hentries hfiles⟩
  · cases hrelisted with
    | directory distinct names nodes =>
      have hpaths := pairwise_schemaFiles (.directory distinct names nodes) extensions path
      rwa [hfiles, List.map_map] at hpaths
  · intro names text
    rw [← mem_map_some_iff, ← hfiles]
    exact hmem (names, some text)

/-- A directory with a file and a directory whose names begin alike. -/
def schemaListing : Entries Node :=
  [("a.prisma", .file (some "model A")),
    ("a", .directory [("b.prisma", .file (some "model B")), ("notes.md", .file (some "B"))]),
    ("migrations", .directory [("c.prisma", .file (some "model C"))])]

/-- The same directory, listed the other way round. -/
def reversedListing : Entries Node :=
  [("migrations", .directory [("c.prisma", .file (some "model C"))]),
    ("a", .directory [("notes.md", .file (some "B")), ("b.prisma", .file (some "model B"))]),
    ("a.prisma", .file (some "model A"))]

theorem collect_eq_of_relisted_and_eq_joined_schemaListing :
    collect (.directory [("db", .directory reversedListing)]) "db" [".prisma"] =
        .ok "model B\nmodel A" ∧
      ∃ files : List (List String × String),
        (files.map Prod.fst).Pairwise (List.Lex (· < ·)) ∧
        (∀ names text, (names, text) ∈ files ↔
          (Node.directory schemaListing).HoldsFile names (some text) ∧
            "migrations" ∉ names.dropLast ∧
            ∃ name ∈ names.getLast?, HasListedExtension [".prisma"] name) ∧
        collect (.directory [("db", .directory schemaListing)]) "db" [".prisma"] =
          .ok ("\n".intercalate (files.map Prod.snd)) := by
  have hinner : Node.Relisted
      (.directory [("b.prisma", .file (some "model B")), ("notes.md", .file (some "B"))])
      (.directory [("notes.md", .file (some "B")), ("b.prisma", .file (some "model B"))]) :=
    .of_forall₂_of_perm (by decide) (.cons ⟨rfl, .file _⟩ (.cons ⟨rfl, .file _⟩ .nil))
      (.swap _ _ _)
  have hnodes : List.Forall₂ (fun e e' => e.1 = e'.1 ∧ e.2.Relisted e'.2) schemaListing
      reversedListing.reverse :=
    .cons ⟨rfl, .file _⟩ (.cons ⟨rfl, hinner⟩
      (.cons ⟨rfl, (Node.Relisted.file _).singleton _⟩ .nil))
  have houter : Node.Relisted (.directory schemaListing) (.directory reversedListing) :=
    .of_forall₂_of_perm (by decide) hnodes (List.reverse_perm reversedListing)
  have hreadable : (Node.directory schemaListing).ReadableAt "db" := by
    refine .directory (by decide +kernel) fun name node hentry => ?_
    simp only [schemaListing, List.mem_cons, Prod.mk.injEq, List.not_mem_nil, or_false] at hentry
    obtain ⟨rfl, rfl⟩ | ⟨rfl, rfl⟩ | ⟨rfl, rfl⟩ := hentry
    · exact .file (by decide +kernel) _
    · refine .directory (by decide +kernel) fun name node hentry => ?_
      simp only [List.mem_cons, Prod.mk.injEq, List.not_mem_nil, or_false] at hentry
      obtain ⟨rfl, rfl⟩ | ⟨rfl, rfl⟩ := hentry
      · exact .file (by decide +kernel) _
      · exact .file (by decide +kernel) _
    · refine .directory (by decide +kernel) fun name node hentry => ?_
      obtain ⟨rfl, rfl⟩ := Prod.mk.inj (List.mem_singleton.1 hentry)
      exact .file (by decide +kernel) _
  have h := collect_eq_of_relisted_and_eq_joined (houter.singleton "db") "db" [".prisma"]
  have hfiles : schemaFiles [".prisma"] "db" schemaListing =
      [(["a", "b.prisma"], "model B"), (["a.prisma"], "model A")].map
        fun p => (p.1, some p.2) := by
    have hbelow : (filesBelow "db" schemaListing).filter
        (fun f => f.1.getLast?.any (hasExtension [".prisma"])) =
        [(["a.prisma"], some "model A"), (["a", "b.prisma"], some "model B")] := by
      decide +kernel
    have horder : pathLe ["a.prisma"] ["a", "b.prisma"] = false := by decide +kernel
    rw [schemaFiles, hbelow]
    simp [List.mergeSort, horder]
  refine ⟨?_, h.2 schemaListing rfl hreadable⟩
  rw [← h.1]
  exact collect_of_schemaFiles_eq rfl hfiles

end Source

end Sieve
