import Sieve.Proofs.Filter.QueryPairs
import Sieve.Proofs.Filter.UnsafeKeys

/-!
# Lists of values

An operator that takes a list finds it written in two ways: as one text with commas between the
elements, or as a list of texts. As long as no element holds a comma, both say the same. A query
string writes the second when it repeats a key, so that a key that is repeated and a key that comes
once, with its values joined, are compiled alike.

Membership tests and disjunctions differ in one thing: the elements of a membership test are
trimmed, those of a disjunction are taken as they stand.

## Main definitions

* `Operator.takesList` — the operators whose value is a list
* `listEncodings` — the two ways to write a list of texts
* `Params.JoinedAt` — pairs that differ in how one key tells its texts

## Main results

* `commaParts_intercalate` — elements without commas come back from the joined text
* `Builder.build?_member_of_mem_listEncodings`, `Builder.build?_or_of_mem_listEncodings` — the tree
  of a list, however it is written
* `Compiler.compilation_of_joinedAt` — a repeated key is compiled as a joined one is
* `Builder.build?_and_compilation_of_listEncodings` — both together
-/

namespace Sieve

/-! ### Parameters that act alike -/

section Entries

variable {α β : Type}

/-- Entries with the same keys are related one by one, if the values of each key are. -/
theorem Entries.forall₂_of_keys_eq {R : String × α → String × β → Prop} {es : Entries α}
    {fs : Entries β} (hes : (keys es).Nodup) (hkeys : keys es = keys fs)
    (h : ∀ key v w, get? es key = some v → get? fs key = some w → R (key, v) (key, w)) :
    List.Forall₂ R es fs := by
  induction es generalizing fs with
  | nil =>
    obtain rfl : fs = [] := List.map_eq_nil_iff.1 hkeys.symm
    exact List.Forall₂.nil
  | cons p es ih =>
    obtain ⟨k, v⟩ := p
    obtain ⟨q, fs, rfl⟩ := List.exists_cons_of_ne_nil (l := fs) (by rintro rfl; cases hkeys)
    obtain ⟨k', w⟩ := q
    obtain ⟨rfl, hrest⟩ : k = k' ∧ keys es = keys fs := by simpa using hkeys
    obtain ⟨hk, hes⟩ := List.nodup_cons.1 hes
    refine List.Forall₂.cons (h k v w (by simp [get?_cons]) (by simp [get?_cons])) (ih hes hrest ?_)
    intro key v' w' hv hw
    have hne : k ≠ key := fun e => hk (e ▸ mem_keys_of_get? hv)
    exact h key v' w' (by rwa [get?_cons, if_neg hne]) (by rwa [get?_cons, if_neg hne])

end Entries

namespace Filter

namespace Compiler

variable (c : Compiler)

/-- Lays the trees of one more parameter over what is compiled so far. -/
def addParameter (r : Compilation) (p : String × Json) : Compilation :=
  if c.ignored.contains p.1 then r else (triples p.1 p.2).foldl (fun r t => c.add r p.1 t) r

/-- Parameters are compiled one after the other. -/
theorem compilation_eq_foldl_addParameter (params : Params) :
    c.compilation params = params.foldl c.addParameter ⟨.empty, []⟩ := by
  rw [compilation, keyedTriples, List.foldl_flatMap, List.foldl_filter]
  congr 1
  funext r p
  rw [addParameter, List.foldl_map]
  cases c.ignored.contains p.1 <;> rfl

/-- Parameters of which each does the same are compiled alike, with the same faults. -/
theorem compilation_congr {params params' : Params}
    (h : List.Forall₂ (fun p q => ∀ r, c.addParameter r p = c.addParameter r q) params params') :
    c.compilation params = c.compilation params' := by
  rw [compilation_eq_foldl_addParameter, compilation_eq_foldl_addParameter]
  generalize (⟨.empty, []⟩ : Compilation) = start
  induction h generalizing start with
  | nil => rfl
  | cons hstep _ ih => rw [List.foldl_cons, List.foldl_cons, hstep, ih]

end Compiler

/-! ### The two encodings -/

/-- The value of the operator is a list. -/
def Operator.takesList : Operator → Bool
  | member _ => true
  | or => true
  | _ => false

/-- The two ways to write a list of texts: joined by commas, and as a list. -/
def listEncodings (values : List String) : List Json :=
  [.string (",".intercalate values), .array (values.map .string)]

/-- **Elements without commas come back from the joined text.** -/
theorem commaParts_intercalate {values : List String} (hne : values ≠ [])
    (hcomma : ∀ s ∈ values, ',' ∉ s.toList) : commaParts (",".intercalate values) = values := by
  have hparts : ∀ part ∈ values.map String.toList, ',' ∉ part := List.forall_mem_map.2 hcomma
  have hsplit : Text.splitAt ',' (",".intercalate values).toList = values.map String.toList := by
    rw [String.toList_intercalate]
    exact Text.splitAt_intercalate (by simpa using hne) hparts
  rw [commaParts, hsplit, List.map_map]
  simp [Function.comp_def]

/-- What a query string keeps of a key is an encoding of its texts. -/
theorem Params.mem_listEncodings_of_ofTexts? {values : List String} {v : Json}
    (h : ofTexts? values = some v) : v ∈ listEncodings values := by
  match values with
  | [] => cases h
  | [s] =>
    obtain rfl : Json.string s = v := Option.some.inj h
    simp [listEncodings]
  | _ :: _ :: _ =>
    obtain rfl := Option.some.inj h
    simp [listEncodings]

section

variable {values : List String} (hne : values ≠ []) (hcomma : ∀ s ∈ values, ',' ∉ s.toList)

include hne hcomma

namespace Builder

variable (b : Builder) (root : String)

/-- The operands of a membership test are the elements, trimmed. -/
theorem operandList_of_mem_listEncodings {v : Json} (hv : v ∈ listEncodings values) :
    b.operandList root v =
      values.map fun s => b.classification.coerceText root (Text.trim s) := by
  obtain rfl | rfl : v = _ ∨ v = _ := by simpa [listEncodings] using hv
  · rw [operandList, commaParts_intercalate hne hcomma]
  · rw [operandList, List.map_map]
    rfl

/-- The operands of a disjunction are the elements as they stand. -/
theorem alternatives_of_mem_listEncodings {v : Json} (hv : v ∈ listEncodings values) :
    b.alternatives root v = values.map (b.classification.coerceText root) := by
  obtain rfl | rfl : v = _ ∨ v = _ := by simpa [listEncodings] using hv
  · rw [alternatives, commaParts_intercalate hne hcomma]
  · rw [alternatives, List.map_map]
    rfl

variable (rest : List String)

/-- **The tree of a membership test against a list**, however the list is written. -/
theorem build?_member_of_mem_listEncodings (op : Membership) {v : Json}
    (hv : v ∈ listEncodings values) : b.build? ⟨root :: rest, some (.member op), v⟩ =
      some (.wrap (root :: rest) (.conditions [.member op
        (values.map fun s => b.classification.coerceText root (Text.trim s))])) := by
  rw [← b.operandList_of_mem_listEncodings hne hcomma root hv]
  rfl

/-- **The tree of a disjunction over a list**, however the list is written. -/
theorem build?_or_of_mem_listEncodings {v : Json} (hv : v ∈ listEncodings values) :
    b.build? ⟨root :: rest, some .or, v⟩ =
      some (.wrap [Tree.orKey] (.or (values.map fun s =>
        .wrap (root :: rest) (.equals (b.classification.coerceText root s))))) := by
  have hmap := b.alternatives_of_mem_listEncodings hne hcomma root hv
  have hbuild : b.build? ⟨root :: rest, some .or, v⟩ = some (.wrap [Tree.orKey]
      (.or ((b.alternatives root v).map fun w => .wrap (root :: rest) (.equals w)))) := rfl
  rw [hbuild, hmap, List.map_map]
  rfl

/-- Both encodings are built into the same tree. -/
theorem build?_eq_of_mem_listEncodings (fields : List String) {op : Operator}
    (hop : op.takesList = true) {v w : Json} (hv : v ∈ listEncodings values)
    (hw : w ∈ listEncodings values) :
    b.build? ⟨fields, some op, v⟩ = b.build? ⟨fields, some op, w⟩ := by
  cases fields with
  | nil => rfl
  | cons root rest =>
    cases op with
    | member op =>
      rw [b.build?_member_of_mem_listEncodings hne hcomma root rest op hv,
        b.build?_member_of_mem_listEncodings hne hcomma root rest op hw]
    | or =>
      rw [b.build?_or_of_mem_listEncodings hne hcomma root rest hv,
        b.build?_or_of_mem_listEncodings hne hcomma root rest hw]
    | _ => simp [Operator.takesList] at hop

end Builder

end

/-! ### Repeated keys -/

/-- A key with an operator and a value that is no object give one triple. -/
theorem triples_of_operator {key : String} {op : Operator}
    (hop : (Key.parse key).operator = some op) {v : Json} (hv : v.isObject = false) :
    triples key v = [⟨(Key.parse key).fields, some op, v⟩] := by
  have hne : key ≠ "" := by
    rintro rfl
    rw [Key.parse, segments_empty] at hop
    cases hop
  rw [triples, triplesAt_of_not_object hv, keyPath_of_ne_empty hne, ← hop]
  rfl

/-- The second pairs are the first ones with the texts of one key joined by commas: the keys come
in the same order, that key comes once, and every other key has the same texts. -/
structure Params.JoinedAt (key : String) (repeated joined : List (String × String)) : Prop where
  keys_eq : (joined.map Prod.fst).eraseDups = (repeated.map Prod.fst).eraseDups
  texts_key : textsOf key joined = [",".intercalate (textsOf key repeated)]
  texts_other : ∀ k, k ≠ key → textsOf k joined = textsOf k repeated

namespace Compiler

variable (c : Compiler) {key : String} {op : Operator}

/-- A parameter that is an encoding of a list does the same as any other encoding of it. -/
theorem addParameter_of_mem_listEncodings (hop : (Key.parse key).operator = some op)
    (hlist : op.takesList = true) {values : List String} (hne : values ≠ [])
    (hcomma : ∀ s ∈ values, ',' ∉ s.toList) {v w : Json} (hv : v ∈ listEncodings values)
    (hw : w ∈ listEncodings values) (r : Compilation) :
    c.addParameter r (key, v) = c.addParameter r (key, w) := by
  have hobject : ∀ u ∈ listEncodings values, u.isObject = false := by
    intro u hu
    obtain rfl | rfl : u = _ ∨ u = _ := by simpa [listEncodings] using hu
    · rfl
    · rfl
  have hbuild := c.build?_eq_of_mem_listEncodings hne hcomma (Key.parse key).fields hlist hv hw
  -- a triple with an operator is no ordering, so that its value is not found fault with
  have hordering : ∀ u, checkOrdering key ⟨(Key.parse key).fields, some op, u⟩ = [] := by
    intro u
    simp [checkOrdering, Triple.isOrdering]
  simp only [addParameter, triples_of_operator hop (hobject v hv),
    triples_of_operator hop (hobject w hw), List.foldl_cons, List.foldl_nil, add, hbuild, hordering]

/-- **A repeated key is compiled as a joined one is**, if no text of it holds a comma and its
operator takes a list. -/
theorem compilation_of_joinedAt (hop : (Key.parse key).operator = some op)
    (hlist : op.takesList = true) {repeated joined : List (String × String)}
    (h : Params.JoinedAt key repeated joined)
    (hcomma : ∀ s ∈ Params.textsOf key repeated, ',' ∉ s.toList) :
    c.compilation (.ofPairs repeated) = c.compilation (.ofPairs joined) := by
  have hkeys : Entries.keys (Params.ofPairs repeated) = Entries.keys (Params.ofPairs joined) := by
    rw [Params.keys_ofPairs, Params.keys_ofPairs, h.keys_eq]
  refine c.compilation_congr
    (Entries.forall₂_of_keys_eq (Params.nodup_keys_ofPairs repeated) hkeys ?_)
  intro k v w hv hw r
  rw [Params.get?_ofPairs] at hv hw
  by_cases hk : k = key
  · subst hk
    have hne : Params.textsOf k repeated ≠ [] := fun e => by simp [e, Params.ofTexts?] at hv
    have hw' : w ∈ listEncodings (Params.textsOf k repeated) := by
      rw [h.texts_key] at hw
      obtain rfl := Option.some.inj hw
      exact List.mem_cons_self
    exact c.addParameter_of_mem_listEncodings hop hlist hne hcomma
      (Params.mem_listEncodings_of_ofTexts? hv) hw' r
  · rw [h.texts_other k hk, hv] at hw
    obtain rfl := Option.some.inj hw
    rfl

end Compiler

/-- **The encodings of a list agree.** Whichever way texts without commas are written, a membership
test is built against all of them in order, each trimmed and converted for the outermost field, and
a disjunction into one alternative for each of them in order, converted but not trimmed. A query
string that repeats a key holds the list of its texts, and is compiled, to the same tree with the
same faults, as one that has the key once with its texts joined by commas. -/
theorem Builder.build?_and_compilation_of_listEncodings {values : List String} (hne : values ≠ [])
    (hcomma : ∀ s ∈ values, ',' ∉ s.toList) :
    (∀ (b : Builder) (root : String) (rest : List String) (op : Membership),
      b.build? ⟨root :: rest, some (.member op), .string (",".intercalate values)⟩ =
        b.build? ⟨root :: rest, some (.member op), .array (values.map .string)⟩ ∧
      b.build? ⟨root :: rest, some (.member op), .array (values.map .string)⟩ =
        some (.wrap (root :: rest) (.conditions [.member op
          (values.map fun s => b.classification.coerceText root (Text.trim s))]))) ∧
    (∀ (b : Builder) (root : String) (rest : List String),
      b.build? ⟨root :: rest, some .or, .string (",".intercalate values)⟩ =
        b.build? ⟨root :: rest, some .or, .array (values.map .string)⟩ ∧
      b.build? ⟨root :: rest, some .or, .array (values.map .string)⟩ =
        some (.wrap [Tree.orKey] (.or (values.map fun s =>
          .wrap (root :: rest) (.equals (b.classification.coerceText root s)))))) ∧
    ∀ (key repeated joined : String), Params.textsOf key (decodedPairs repeated) = values →
      Params.JoinedAt key (decodedPairs repeated) (decodedPairs joined) →
      (2 ≤ values.length → Entries.get? (Params.ofQueryString repeated) key =
        some (.array (values.map .string))) ∧
      Entries.get? (Params.ofQueryString joined) key = some (.string (",".intercalate values)) ∧
      ∀ (c : Compiler) (op : Operator), (Key.parse key).operator = some op →
        op.takesList = true → c.compilation (.ofQueryString repeated) =
          c.compilation (.ofQueryString joined) := by
  have hstring : Json.string (",".intercalate values) ∈ listEncodings values := by
    simp [listEncodings]
  have harray : Json.array (values.map .string) ∈ listEncodings values := by
    simp [listEncodings]
  refine ⟨fun b root rest op => ?_, fun b root rest => ?_, fun key repeated joined htexts h => ?_⟩
  · exact ⟨b.build?_eq_of_mem_listEncodings hne hcomma _ rfl hstring harray,
      b.build?_member_of_mem_listEncodings hne hcomma root rest op harray⟩
  · exact ⟨b.build?_eq_of_mem_listEncodings hne hcomma _ rfl hstring harray,
      b.build?_or_of_mem_listEncodings hne hcomma root rest harray⟩
  · refine ⟨fun htwo => ?_, ?_, fun c op hop hlist => ?_⟩
    · rw [Params.ofQueryString, Params.get?_ofPairs, htexts, Params.ofTexts?_of_two_le htwo]
    · rw [Params.ofQueryString, Params.get?_ofPairs, h.texts_key, htexts]
      rfl
    · exact c.compilation_of_joinedAt hop hlist h (htexts ▸ hcomma)

/-- A compiler that reads `id` as a number. -/
def idCompiler : Compiler where
  classification := { numerics := ["id"] }
  provider := .postgresql
  strict := true
  ignored := []

theorem build?_and_compilation_of_listEncodings_ids :
    idCompiler.build? ⟨["id", "at"], some .or, .string "1, 2,"⟩ =
      idCompiler.build? ⟨["id", "at"], some .or,
        .array [.string "1", .string " 2", .string ""]⟩ ∧
    idCompiler.compilation (.ofQueryString "id__in=1&name=x&id__in=+2&id__in") =
      idCompiler.compilation (.ofQueryString "?id__in=1,%202,&name=x") := by
  have hrepeated : decodedPairs "id__in=1&name=x&id__in=+2&id__in" =
      [("id__in", "1"), ("name", "x"), ("id__in", " 2"), ("id__in", "")] := by cbv
  have hjoined : decodedPairs "?id__in=1,%202,&name=x" = [("id__in", "1, 2,"), ("name", "x")] := by
    cbv
  have htexts : Params.textsOf "id__in" (decodedPairs "id__in=1&name=x&id__in=+2&id__in") =
      ["1", " 2", ""] := by rw [hrepeated]; decide
  have h : Params.JoinedAt "id__in" (decodedPairs "id__in=1&name=x&id__in=+2&id__in")
      (decodedPairs "?id__in=1,%202,&name=x") := by
    refine ⟨?_, ?_, fun k hk => ?_⟩
    · rw [hrepeated, hjoined]
      decide
    · rw [htexts, hjoined]
      decide
    · have hother : ("id__in" == k) = false := beq_eq_false_iff_ne.2 hk.symm
      simp [hrepeated, hjoined, Params.textsOf, List.filter_cons, hother]
  have hne : ["1", " 2", ""] ≠ [] := by decide
  obtain ⟨-, hor, hcompile⟩ :=
    Builder.build?_and_compilation_of_listEncodings hne (by decide)
  exact ⟨(hor idCompiler.toBuilder "id" ["at"]).1,
    (hcompile "id__in" _ _ htexts h).2.2 idCompiler (.member .isIn) (by cbv) rfl⟩

end Filter

end Sieve
