import Sieve.Filter.ModelFields
import Sieve.Proofs.Decimal.WholeDoubles

/-!
# Values that pass conversion

Conversion for a field changes text only; any other JSON value becomes an operand as it is. Back in
JSON it is the value that it was, with one exception: an operand keeps whole numbers of the signed
64-bit range, and one beyond, up to 64 bits without a sign, becomes the nearest double. Several
numbers share a double, so that such a number is lost for good. Inside an object nothing changes,
because an operand carries an object along.

## Main definitions

* `Json.inRange` — the numbers are those that a JSON text can spell
* `Json.isSigned` — the whole numbers are in the signed 64-bit range
* `Json.doubled` — larger whole numbers as doubles

## Main results

* `Operand.toJson_ofJson` — a JSON value by way of its operand
* `Json.doubled_eq_self_iff` — which values come back as they were
* `Classification.toJson_coerce_and_eq_self_iff` — what is not text, whatever the field
-/

namespace Sieve

open Decimal

namespace Json

/-! ### Numbers outside of objects -/

mutual

/-- `whole` holds of every whole number in the value and `double` of every other number; numbers
inside objects are not looked at. -/
def allNumbers (whole : Int → Bool) (double : Float → Bool) : Json → Bool
  | int i => whole i
  | float x => double x
  | array items => allNumbersList whole double items
  | _ => true

/-- `allNumbers` of each item. -/
def allNumbersList (whole : Int → Bool) (double : Float → Bool) : List Json → Bool
  | [] => true
  | v :: vs => v.allNumbers whole double && allNumbersList whole double vs

end

/-- The numbers outside of objects are whole numbers in the signed or unsigned 64-bit range and
finite doubles, as those of a JSON text are. -/
def inRange (v : Json) : Bool := v.allNumbers (fun i => fits i || fitsUnsigned i) Float.isFinite

/-- The whole numbers outside of objects are in the signed 64-bit range. -/
def isSigned (v : Json) : Bool := v.allNumbers fits fun _ => true

mutual

/-- The value with each whole number outside of objects and of the signed 64-bit range as a
double. -/
def doubled : Json → Json
  | int i => if fits i then int i else float (Float.ofInt i)
  | array items => array (doubledList items)
  | v => v

/-- `doubled` of each item. -/
def doubledList : List Json → List Json
  | [] => []
  | v :: vs => v.doubled :: doubledList vs

end

mutual

/-- **A value keeps its numbers if its whole numbers are in the signed 64-bit range.** -/
theorem doubled_eq_self_iff (v : Json) : v.doubled = v ↔ v.isSigned = true := by
  cases v with
  | int i =>
    rw [doubled, isSigned, allNumbers]
    split
    · next h => simp [h]
    · next h => simp [h]
  | array items =>
    rw [doubled, isSigned, allNumbers, Json.array.injEq]
    exact doubledList_eq_self_iff items
  | null | bool _ | float _ | string _ | object _ => simp [doubled, isSigned, allNumbers]

theorem doubledList_eq_self_iff (vs : List Json) :
    doubledList vs = vs ↔ allNumbersList fits (fun _ => true) vs = true := by
  cases vs with
  | nil => simp [doubledList, allNumbersList]
  | cons v vs =>
    rw [doubledList, allNumbersList, Bool.and_eq_true, List.cons.injEq, doubled_eq_self_iff v,
      doubledList_eq_self_iff vs, isSigned]

end

end Json

namespace Filter

namespace Operand

mutual

/-- **A JSON value comes back from its operand with the numbers that an operand has for it.** -/
theorem toJson_ofJson {v : Json} (h : v.inRange = true) : (ofJson v).toJson = v.doubled := by
  cases v with
  | int i =>
    rw [ofJson, Json.doubled]
    split
    · rfl
    · next hfits =>
      have hunsigned : fitsUnsigned i = true := by
        simpa [Json.inRange, Json.allNumbers, hfits] using h
      rw [toJson, if_pos (isFinite_ofInt (Bool.eq_false_iff.2 hfits) hunsigned)]
  | float x => exact if_pos h
  | array items => exact congrArg Json.array (toJsonList_ofJsonList h)
  | null | bool _ | string _ | object _ => rfl

theorem toJsonList_ofJsonList {vs : List Json}
    (h : Json.allNumbersList (fun i => fits i || fitsUnsigned i) Float.isFinite vs = true) :
    toJsonList (ofJsonList vs) = Json.doubledList vs := by
  cases vs with
  | nil => rfl
  | cons v vs =>
    rw [Json.allNumbersList, Bool.and_eq_true] at h
    rw [ofJsonList, toJsonList, Json.doubledList, toJson_ofJson h.1, toJsonList_ofJsonList h.2]

end

mutual

/-- A number that became a double has the operand that it had before. -/
theorem ofJson_doubled (v : Json) : ofJson v.doubled = ofJson v := by
  cases v with
  | int i =>
    rw [Json.doubled, ofJson]
    split
    · next hfits => rw [ofJson, if_pos hfits]
    · rfl
  | array items => exact congrArg list (ofJsonList_doubledList items)
  | null | bool _ | float _ | string _ | object _ => rfl

theorem ofJsonList_doubledList (vs : List Json) :
    ofJsonList (Json.doubledList vs) = ofJsonList vs := by
  cases vs with
  | nil => rfl
  | cons v vs => rw [Json.doubledList, ofJsonList, ofJsonList, ofJson_doubled v,
      ofJsonList_doubledList vs]

end

end Operand

namespace Classification

theorem coerce_of_ne_string (c : Classification) (field : String) {v : Json}
    (h : ∀ s, v ≠ .string s) : c.coerce field v = .ofJson v := by
  cases v with
  | string s => exact absurd rfl (h s)
  | null | bool _ | int _ | float _ | array _ | object _ => rfl

/-- **What is not text comes back from conversion with its larger whole numbers as doubles**, and
so just as it was if its whole numbers are in the signed 64-bit range, whatever the field. -/
theorem toJson_coerce_and_eq_self_iff (c : Classification) (field : String) {v : Json}
    (hrange : v.inRange = true) (hstring : ∀ s, v ≠ .string s) :
    (c.coerce field v).toJson = v.doubled ∧
      ((c.coerce field v).toJson = v ↔ v.isSigned = true) := by
  have hjson : (c.coerce field v).toJson = v.doubled := by
    rw [coerce_of_ne_string c field hstring, Operand.toJson_ofJson hrange]
  exact ⟨hjson, by rw [hjson, Json.doubled_eq_self_iff]⟩

/-- In a list the largest number of 64 bits becomes a double; in an object inside the list it does
not. -/
theorem toJson_coerce_and_eq_self_iff_largeId :
    let large : Json := .int 18446744073709551615
    let kept : Json := .object [("n", large)]
    let v : Json := .array [.int (-1), .array [large, kept], .null, .float 1.5]
    let w : Json :=
      .array [.int (-1), .array [.float 18446744073709551616.0, kept], .null, .float 1.5]
    (v.inRange = true ∧ ∀ s, v ≠ .string s) ∧ (coerce ⟨[], [], ["id"]⟩ "id" v).toJson = w ∧
      (coerce ⟨[], [], ["id"]⟩ "id" v).toJson ≠ v := by
  intro large kept v w
  have hrange : v.inRange = true := rfl
  have hstring : ∀ s, v ≠ .string s := nofun
  obtain ⟨hjson, hself⟩ := toJson_coerce_and_eq_self_iff ⟨[], [], ["id"]⟩ "id" hrange hstring
  exact ⟨⟨hrange, hstring⟩, hjson.trans rfl, fun h => Bool.false_ne_true (hself.1 h)⟩

/-- The largest number of 64 bits does not come back, and cannot: the number before it has the same
operand. -/
theorem coerce_largeIds :
    (coerce {} "id" (.int 18446744073709551615)).toJson ≠ .int 18446744073709551615 ∧
      coerce {} "id" (.int 18446744073709551615) = coerce {} "id" (.int 18446744073709551614) :=
  ⟨nofun, rfl⟩

end Classification

end Filter

end Sieve
