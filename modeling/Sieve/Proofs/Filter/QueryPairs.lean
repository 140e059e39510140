import Mathlib.Data.List.Induction
import Sieve.Filter.Params
import Sieve.Proofs.Json.Lookup

/-!
# The pairs of a query string

The parameters of a query string collect its pairs key by key. The pairs are taken in one pass, and
what is kept of a key grows with each of its texts: nothing at first, then the text, then the list
of the texts. So after any number of pairs the keys stand in the order in which they came first, and
the value of each tells all of its texts in order, however the pairs of other keys come in between.

## Main definitions

* `Params.textsOf` — the texts of a key, in order
* `Params.ofTexts?` — what is kept of a key with given texts

## Main results

* `Params.keys_ofPairs_concat`, `Params.get?_ofPairs_concat` — what one more pair does
* `Params.keys_ofPairs`, `Params.get?_ofPairs` — the keys, and the value of each
* `Params.keys_and_get?_ofQueryString` — the parameters of a query string, told by its pairs
-/

namespace Sieve.Filter.Params

variable (pairs : List (String × String))

/-- The texts of a key, in order. -/
def textsOf (key : String) (pairs : List (String × String)) : List String :=
  (pairs.filter fun p => p.1 == key).map Prod.snd

/-- What is kept of a key with the given texts: nothing if there is none, a single text as it is,
and several as a list. -/
def ofTexts? : List String → Option Json
  | [] => none
  | [s] => some (.string s)
  | ss => some (.array (ss.map .string))

theorem ofTexts?_of_two_le {ss : List String} (h : 2 ≤ ss.length) :
    ofTexts? ss = some (.array (ss.map .string)) := by
  match ss, h with
  | _ :: _ :: _, _ => rfl

/-- One more text of a key is collected with those that are kept. -/
theorem ofTexts?_concat (ss : List String) (s : String) :
    ofTexts? (ss ++ [s]) = some (collect (ofTexts? ss) s) := by
  match ss with
  | [] => rfl
  | [_] => rfl
  | _ :: _ :: _ => simp [ofTexts?, collect]

theorem textsOf_concat_self (key s : String) :
    textsOf key (pairs ++ [(key, s)]) = textsOf key pairs ++ [s] := by
  simp [textsOf, List.filter_append]

theorem textsOf_concat_of_ne {key k : String} (s : String) (h : key ≠ k) :
    textsOf key (pairs ++ [(k, s)]) = textsOf key pairs := by
  simp [textsOf, List.filter_append, h.symm]

/-! ### One more pair -/

theorem ofPairs_concat (key s : String) : ofPairs (pairs ++ [(key, s)]) =
    Entries.insert (ofPairs pairs) key (collect (Entries.get? (ofPairs pairs) key) s) := by
  rw [ofPairs, List.foldl_append]
  rfl

/-- One more pair adds its key, unless it is there. -/
theorem keys_ofPairs_concat (key s : String) : Entries.keys (ofPairs (pairs ++ [(key, s)])) =
    if key ∈ Entries.keys (ofPairs pairs) then Entries.keys (ofPairs pairs)
    else Entries.keys (ofPairs pairs) ++ [key] := by
  rw [ofPairs_concat]
  split
  · next h => exact Entries.keys_insert_of_mem _ h
  · next h => exact Entries.keys_insert_of_not_mem _ h

/-- One more pair changes what is kept of its key, and of no other. -/
theorem get?_ofPairs_concat (key s k : String) : Entries.get? (ofPairs (pairs ++ [(key, s)])) k =
    if k = key then some (collect (Entries.get? (ofPairs pairs) key) s)
    else Entries.get? (ofPairs pairs) k := by
  rw [ofPairs_concat]
  split
  · next h => rw [h, Entries.get?_insert_self]
  · next h => exact Entries.get?_insert_of_ne _ h

/-! ### All pairs -/

/-- One more key comes last, unless it came before. -/
theorem eraseDups_concat (keys : List String) (key : String) : (keys ++ [key]).eraseDups =
    if key ∈ keys then keys.eraseDups else keys.eraseDups ++ [key] := by
  rw [List.eraseDups_append]
  by_cases h : key ∈ keys
  · simp [h, List.removeAll]
  · simp [h, List.removeAll, List.eraseDups_cons]

/-- **The keys come once each**, in the order in which they come first. -/
theorem keys_ofPairs : Entries.keys (ofPairs pairs) = (pairs.map Prod.fst).eraseDups := by
  induction pairs using List.reverseRecOn with
  | nil => rfl
  | append_singleton pairs p ih =>
    obtain ⟨key, s⟩ := p
    rw [keys_ofPairs_concat, ih, List.map_append, List.map_singleton, eraseDups_concat]
    simp only [List.mem_eraseDups]

/-- **The value of a key tells all of its texts**, in order. -/
theorem get?_ofPairs (key : String) :
    Entries.get? (ofPairs pairs) key = ofTexts? (textsOf key pairs) := by
  induction pairs using List.reverseRecOn with
  | nil => rfl
  | append_singleton pairs p ih =>
    obtain ⟨k, s⟩ := p
    rw [get?_ofPairs_concat]
    by_cases h : key = k
    · subst h
      rw [if_pos rfl, ih, textsOf_concat_self, ofTexts?_concat]
    · rw [if_neg h, ih, textsOf_concat_of_ne pairs s h]

theorem nodup_keys_ofPairs : (Entries.keys (ofPairs pairs)).Nodup := by
  induction pairs using List.reverseRecOn with
  | nil => exact List.nodup_nil
  | append_singleton pairs p ih =>
    obtain ⟨key, s⟩ := p
    rw [ofPairs_concat]
    exact Entries.nodup_keys_insert _ ih

/-- **The parameters of a query string, told by its pairs.** The keys are those of the decoded
pairs, each once and in the order in which they come first. A key that comes once has its text as
value, and a key that comes more often has the list of all its texts, in the order of the pairs; no
other key has a value. -/
theorem keys_and_get?_ofQueryString (query : String) :
    Entries.keys (ofQueryString query) = ((decodedPairs query).map Prod.fst).eraseDups ∧
    (Entries.keys (ofQueryString query)).Nodup ∧
    ∀ key, Entries.get? (ofQueryString query) key =
      match textsOf key (decodedPairs query) with
      | [] => none
      | [s] => some (.string s)
      | ss => some (.array (ss.map .string)) := by
  refine ⟨keys_ofPairs _, nodup_keys_ofPairs _, ?_⟩
  intro key
  exact get?_ofPairs _ key

/-- A key that comes between the others, and one whose later texts follow on other keys. -/
example : ofQueryString "?a=1&b=2&a=3&c&a=1" =
    [("a", .array [.string "1", .string "3", .string "1"]), ("b", .string "2"),
      ("c", .string "")] := by cbv

end Sieve.Filter.Params
