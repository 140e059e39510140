import Sieve.Proofs.Text.Runs
import Sieve.Source.Collect

/-!
# The files found below a directory

The walk through a directory finds every file below it, with the names that lead there, unless one
of the directories on the way is named `migrations`. It keeps those that have one of the given
extensions and puts them in the order of their paths, which is the lexicographic order of the names.

All of this is told here without the walk: by what a tree holds, by how a name ends, and by the
order in the library. A tree is *readable* if every path in it is short enough to be followed and
every file has a text; only then is nothing found that cannot be read.

## Main definitions

* `Files.Node.HoldsFile` — the names that lead to a file below a node
* `Files.Node.ReadableAt` — everything below a node can be read
* `HasListedExtension` — how a name with one of the extensions ends
* `IsFoundAt` — the files that the walk is to find at an entry

## Main results

* `mem_filesBelow_iff` — the files that are found below a readable directory
* `Files.Path.extension?_eq_some_iff`, `hasExtension_iff` — the extension of a name
* `pathLe_trans`, `pathLe_total`, `pathLe_antisymm` — paths are in a linear order
* `lex_of_pathLe` — that of their names
-/

namespace Sieve

namespace Files

/-- The names lead from a node to a file with the given text. No names lead to the node itself. -/
inductive Node.HoldsFile : Node → List String → Option String → Prop where
  | here (text : Option String) : HoldsFile (.file text) [] text
  | inside {entries : List (String × Node)} {name : String} {node : Node} {names : List String}
      {text : Option String} (entry : (name, node) ∈ entries) (h : HoldsFile node names text) :
    HoldsFile (.directory entries) (name :: names) text

/-- A directory holds files by one name at least. -/
theorem Node.HoldsFile.ne_nil {entries : List (String × Node)} {names : List String}
    {text : Option String} (h : HoldsFile (.directory entries) names text) : names ≠ [] := by
  cases h with
  | inside _ _ => exact List.cons_ne_nil _ _

/-- Everything at a path and below can be read: no path there is too long, and every file is
text. -/
inductive Node.ReadableAt : String → Node → Prop where
  | file {path : String} (fits : Path.fits path = true) (text : String) :
    ReadableAt path (.file (some text))
  | directory {path : String} {entries : List (String × Node)} (fits : Path.fits path = true)
      (below : ∀ name node, (name, node) ∈ entries → ReadableAt (Path.join path name) node) :
    ReadableAt path (.directory entries)

/-- The files below a readable node have texts. -/
theorem Node.ReadableAt.exists_text {path : String} {node : Node} {names : List String}
    {text : Option String} (h : node.ReadableAt path) (hholds : node.HoldsFile names text) :
    ∃ s, text = some s := by
  induction hholds generalizing path with
  | here text =>
    cases h with
    | file _ s => exact ⟨s, rfl⟩
  | inside hentry _ ih =>
    cases h with
    | directory _ below => exact ih (below _ _ hentry)

/-! ### Extensions of names -/

namespace Path

variable {name stem ext : String}

theorem extension?_of_not_mem (h : '.' ∉ name.toList) : extension? name = none := by
  have hplain : '.' ∉ name.toList.reverse := by rwa [List.mem_reverse]
  rw [extension?, Text.dropWhile_ne_of_notMem hplain]

/-- What is cut off a name at its last point. -/
theorem extension?_append (hext : '.' ∉ ext.toList) : extension? (stem ++ "." ++ ext) =
    if stem = "" ∨ stem ++ "." ++ ext = ".." then none else some ext := by
  have hreverse : (stem ++ "." ++ ext).toList.reverse =
      ext.toList.reverse ++ '.' :: stem.toList.reverse := by simp
  have hplain : '.' ∉ ext.toList.reverse := by rwa [List.mem_reverse]
  rw [extension?, hreverse, Text.dropWhile_ne_append_cons hplain,
    Text.takeWhile_ne_append_cons hplain]
  cases hstem : stem.toList.reverse with
  | nil => simp [show stem = "" by simpa using hstem]
  | cons c cs =>
    have hne : stem ≠ "" := by
      rintro rfl
      cases hstem
    simp [hne]

/-- **The extension of a name** is what stands behind its last point, with something in front of
that point. The two points that lead up have none. -/
theorem extension?_eq_some_iff : extension? name = some ext ↔
    name ≠ ".." ∧ '.' ∉ ext.toList ∧ ∃ stem, stem ≠ "" ∧ name = stem ++ "." ++ ext := by
  constructor
  · intro h
    by_cases hmem : '.' ∈ name.toList
    · obtain ⟨behind, front, hname, hbehind⟩ := List.eq_append_cons_of_mem
        (List.mem_reverse.2 hmem)
      have heq : name = String.ofList front.reverse ++ "." ++ String.ofList behind.reverse := by
        rw [← String.toList_inj, ← List.reverse_inj, hname]
        simp
      have hplain : '.' ∉ (String.ofList behind.reverse).toList := by simpa using hbehind
      rw [heq, extension?_append hplain, ← heq] at h
      split at h
      · cases h
      · next hne =>
        obtain rfl := Option.some.inj h
        rw [not_or] at hne
        exact ⟨hne.2, hplain, _, hne.1, heq⟩
    · rw [extension?_of_not_mem hmem] at h
      cases h
  · rintro ⟨hup, hplain, stem, hstem, rfl⟩
    rw [extension?_append hplain, if_neg (not_or.2 ⟨hstem, hup⟩)]

end Path

end Files

namespace Source

open Sieve.Files

/-- The name ends in a point and one of the extensions, with something in front of that point and no
further point behind it. An extension may be listed with points in front of it. -/
def HasListedExtension (extensions : List String) (name : String) : Prop :=
  name ≠ ".." ∧ ∃ stem ext, stem ≠ "" ∧ '.' ∉ ext.toList ∧ name = stem ++ "." ++ ext ∧
    ∃ points, (∀ c ∈ points.toList, c = '.') ∧ points ++ ext ∈ extensions

/-- Points in front of an extension without points are all that is dropped. -/
theorem dropWhile_points_eq_iff {wanted ext : String} (hext : '.' ∉ ext.toList) :
    wanted.toList.dropWhile (· == '.') = ext.toList ↔
      ∃ points : String, (∀ c ∈ points.toList, c = '.') ∧ wanted = points ++ ext := by
  constructor
  · intro h
    refine ⟨String.ofList (wanted.toList.takeWhile (· == '.')), ?_, ?_⟩
    · intro c hc
      rw [String.toList_ofList] at hc
      exact eq_of_beq (List.mem_takeWhile_imp (p := (· == '.')) hc)
    · rw [← String.toList_inj, String.toList_append, String.toList_ofList, ← h,
        List.takeWhile_append_dropWhile]
  · rintro ⟨points, hpoints, rfl⟩
    rw [String.toList_append,
      List.dropWhile_append_of_pos fun c hc => beq_iff_eq.2 (hpoints c hc)]
    cases hcs : ext.toList with
    | nil => rfl
    | cons c cs =>
      have hc : c ≠ '.' := fun e => hext (by rw [hcs, e]; exact List.mem_cons_self)
      simp [hc]

/-- **How a name ends** that has one of the extensions. -/
theorem hasExtension_iff {extensions : List String} {name : String} :
    hasExtension extensions name = true ↔ HasListedExtension extensions name := by
  have hfound : hasExtension extensions name = true ↔ ∃ ext, Path.extension? name = some ext ∧
      ∃ wanted ∈ extensions, wanted.toList.dropWhile (· == '.') = ext.toList := by
    rw [hasExtension]
    cases Path.extension? name <;> simp
  rw [hfound]
  constructor
  · rintro ⟨ext, hext, wanted, hwanted, heq⟩
    obtain ⟨hup, hplain, stem, hstem, hname⟩ := Path.extension?_eq_some_iff.1 hext
    obtain ⟨points, hpoints, rfl⟩ := (dropWhile_points_eq_iff hplain).1 heq
    exact ⟨hup, stem, ext, hstem, hplain, hname, points, hpoints, hwanted⟩
  · rintro ⟨hup, stem, ext, hstem, hplain, hname, points, hpoints, hlisted⟩
    exact ⟨ext, Path.extension?_eq_some_iff.2 ⟨hup, hplain, stem, hstem, hname⟩, points ++ ext,
      hlisted, (dropWhile_points_eq_iff hplain).2 ⟨points, hpoints, rfl⟩⟩

/-! ### The walk -/

variable {path name : String} {node : Node} {entries : List (String × Node)}

theorem filesBelow_eq_flatMap (path : String) (entries : List (String × Node)) :
    filesBelow path entries = entries.flatMap fun e => filesAt (Path.join path e.1) e.1 e.2 := by
  induction entries with
  | nil => rfl
  | cons e entries ih =>
    rw [filesBelow, ih]
    rfl

/-- What is found at an entry begins with its name. -/
theorem exists_eq_cons_of_mem_filesAt {f : Found} (h : f ∈ filesAt path name node) :
    ∃ names, f.1 = name :: names := by
  cases node with
  | file text =>
    obtain rfl := List.mem_singleton.1 h
    exact ⟨[], rfl⟩
  | directory entries =>
    rw [filesAt] at h
    split at h
    · obtain rfl := List.mem_singleton.1 h
      exact ⟨[], rfl⟩
    · split at h
      · cases h
      · obtain ⟨g, -, rfl⟩ := List.mem_map.1 h
        exact ⟨g.1, rfl⟩

/-- A file at an entry, held by what stands there, in no directory that is left out. -/
def IsFoundAt (name : String) (node : Node) (f : Found) : Prop :=
  ∃ names, f.1 = name :: names ∧ node.HoldsFile names f.2 ∧ skippedName ∉ f.1.dropLast

/-- If at each entry the right files are found, they are found below the directory. -/
theorem mem_filesBelow_iff_of_entries
    (h : ∀ name node, (name, node) ∈ entries → ∀ f,
      f ∈ filesAt (Path.join path name) name node ↔ IsFoundAt name node f) (f : Found) :
    f ∈ filesBelow path entries ↔
      (Node.directory entries).HoldsFile f.1 f.2 ∧ skippedName ∉ f.1.dropLast := by
  rw [filesBelow_eq_flatMap, List.mem_flatMap]
  constructor
  · rintro ⟨⟨name, node⟩, hentry, hf⟩
    obtain ⟨names, hnames, hholds, hskip⟩ := (h name node hentry f).1 hf
    refine ⟨?_, hskip⟩
    rw [hnames]
    exact .inside hentry hholds
  · rintro ⟨hholds, hskip⟩
    obtain ⟨names, text⟩ := f
    cases hholds with
    | @inside _ name node names _ hentry hholds =>
      exact ⟨(name, node), hentry, (h name node hentry _).2 ⟨names, rfl, hholds, hskip⟩⟩

theorem mem_filesAt_iff (h : node.ReadableAt path) (name : String) (f : Found) :
    f ∈ filesAt path name node ↔ IsFoundAt name node f := by
  induction h generalizing name f with
  | file fits text =>
    rw [filesAt, if_pos fits, List.mem_singleton]
    constructor
    · rintro rfl
      exact ⟨[], rfl, .here _, by simp⟩
    · rintro ⟨names, hnames, hholds, -⟩
      obtain ⟨found, text'⟩ := f
      obtain rfl : found = name :: names := hnames
      cases hholds with
      | here _ => rfl
  | @directory path entries fits below ih =>
    have hbelow := mem_filesBelow_iff_of_entries fun name node hentry => ih name node hentry name
    -- the name of this directory comes in front of directories on the way, as one more of them
    rw [filesAt, fits, Bool.not_true, if_neg Bool.false_ne_true]
    constructor
    · intro hf
      split at hf
      · cases hf
      · next hname =>
        obtain ⟨g, hg, rfl⟩ := List.mem_map.1 hf
        obtain ⟨hholds, hskip⟩ := (hbelow g).1 hg
        refine ⟨g.1, rfl, hholds, ?_⟩
        rw [List.dropLast_cons_of_ne_nil hholds.ne_nil, List.mem_cons, not_or]
        exact ⟨Ne.symm hname, hskip⟩
    · rintro ⟨names, hnames, hholds, hskip⟩
      rw [hnames, List.dropLast_cons_of_ne_nil hholds.ne_nil, List.mem_cons, not_or] at hskip
      rw [if_neg (Ne.symm hskip.1), List.mem_map]
      exact ⟨(names, f.2), (hbelow _).2 ⟨hholds, hskip.2⟩, Prod.ext hnames.symm rfl⟩

/-- **The files that are found below a readable directory** are those that it holds, unless a
directory on the way has the name that is left out. -/
theorem mem_filesBelow_iff (h : (Node.directory entries).ReadableAt path) (f : Found) :
    f ∈ filesBelow path entries ↔
      (Node.directory entries).HoldsFile f.1 f.2 ∧ skippedName ∉ f.1.dropLast := by
  cases h with
  | directory fits below =>
    exact mem_filesBelow_iff_of_entries
      (fun name node hentry => mem_filesAt_iff (below name node hentry) name) f

/-! ### The order of paths -/

variable {as bs cs : List String}

theorem pathLe_cons_cons_iff {a b : String} : pathLe (a :: as) (b :: bs) = true ↔
    a < b ∨ a = b ∧ pathLe as bs = true := by
  rw [pathLe]
  split
  · next h =>
    subst h
    constructor
    · exact fun hrest => Or.inr ⟨rfl, hrest⟩
    · rintro (hlt | ⟨-, hrest⟩)
      · exact absurd hlt (String.lt_irrefl a)
      · exact hrest
  · next h => simp [h]

theorem pathLe_trans (h : pathLe as bs = true) (h' : pathLe bs cs = true) :
    pathLe as cs = true := by
  induction as generalizing bs cs with
  | nil => rfl
  | cons a as ih =>
    match bs, cs with
    | b :: bs, c :: cs =>
      rw [pathLe_cons_cons_iff] at h h' ⊢
      rcases h with h | ⟨rfl, h⟩
      · rcases h' with h' | ⟨rfl, -⟩
        · exact Or.inl (String.lt_trans h h')
        · exact Or.inl h
      · rcases h' with h' | ⟨rfl, h'⟩
        · exact Or.inl h'
        · exact Or.inr ⟨rfl, ih h h'⟩

theorem pathLe_total (as bs : List String) : (pathLe as bs || pathLe bs as) = true := by
  induction as generalizing bs with
  | nil => rfl
  | cons a as ih =>
    cases bs with
    | nil => rfl
    | cons b bs =>
      have hrest := ih bs
      rw [Bool.or_eq_true] at hrest ⊢
      rw [pathLe_cons_cons_iff, pathLe_cons_cons_iff]
      by_cases hab : a < b
      · exact Or.inl (Or.inl hab)
      · by_cases hba : b < a
        · exact Or.inr (Or.inl hba)
        · obtain rfl := String.le_antisymm (String.not_lt.1 hba) (String.not_lt.1 hab)
          simpa [String.lt_irrefl] using hrest

/-- Of two different paths the lesser one comes first in the lexicographic order of names. -/
theorem lex_of_pathLe (h : pathLe as bs = true) (hne : as ≠ bs) :
    List.Lex (· < ·) as bs := by
  induction as generalizing bs with
  | nil =>
    cases bs with
    | nil => exact absurd rfl hne
    | cons b bs => exact .nil
  | cons a as ih =>
    cases bs with
    | nil => cases h
    | cons b bs =>
      rw [pathLe_cons_cons_iff] at h
      rcases h with h | ⟨rfl, h⟩
      · exact .rel h
      · exact .cons (ih h fun e => hne (congrArg (a :: ·) e))

theorem pathLe_antisymm (h : pathLe as bs = true) (h' : pathLe bs as = true) : as = bs := by
  induction as generalizing bs with
  | nil =>
    cases bs with
    | nil => rfl
    | cons b bs => cases h'
  | cons a as ih =>
    cases bs with
    | nil => cases h
    | cons b bs =>
      rw [pathLe_cons_cons_iff] at h h'
      rcases h with h | ⟨rfl, h⟩
      · rcases h' with h' | ⟨rfl, -⟩
        · exact absurd h' (String.lt_asymm h)
        · exact absurd h (String.lt_irrefl _)
      · rcases h' with h' | ⟨-, h'⟩
        · exact absurd h' (String.lt_irrefl _)
        · rw [ih h h']

end Source

end Sieve
