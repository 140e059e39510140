import Sieve.Proofs.Filter.PassedValues
import Sieve.Proofs.Instant.RoundTrip

/-!
# Conversion does nothing the second time

An operand that was converted for a field goes back to JSON, and is converted for the same field
once more. What was text is text again only where it was kept or where it stands for an instant; a
text that was kept is kept again, and the text of an instant is read as the instant, unless its
year does not have four digits. What was no text is none the second time, and its numbers have
changed by then if they ever do.

## Main results

* `Operand.ofJson_toJson_ofJson` — values that are no text
* `Classification.coerce_toJson_coerceText` — text, in each category
* `Classification.coerce_toJson_coerce_and_read?_text` — every value, and the instants by themselves
-/

namespace Sieve

theorem Decimal.fits_of_int? {cs : List Char} {i : Int} (h : int? cs = some i) : fits i = true := by
  simp only [int?] at h
  split at h
  · cases h
  · split at h
    · next hfits => rwa [← Option.some.inj h]
    · cases h

theorem Json.doubled_ne_string {v : Json} (h : ∀ s, v ≠ .string s) (s : String) :
    v.doubled ≠ .string s := by
  cases v with
  | int i =>
    rw [doubled]
    split <;> nofun
  | string s => exact absurd rfl (h s)
  | null | bool _ | float _ | array _ | object _ => nofun

namespace Filter

namespace Operand

/-- **A JSON value has the operand that it had**, after it went by way of that operand. -/
theorem ofJson_toJson_ofJson {v : Json} (h : v.inRange = true) :
    ofJson (ofJson v).toJson = ofJson v := by
  rw [toJson_ofJson h, ofJson_doubled]

/-- A number in a text is a whole number in the signed 64-bit range or a finite double. -/
theorem number?_cases {s : String} {w : Operand} (h : number? s = some w) :
    (∃ i, Decimal.fits i = true ∧ w = int i) ∨ ∃ x, x.isFinite = true ∧ w = float x := by
  rw [number?] at h
  split at h
  · next i hint => exact .inl ⟨i, Decimal.fits_of_int? hint, (Option.some.inj h).symm⟩
  · obtain ⟨x, hx, hw⟩ := Option.map_eq_some_iff.1 h
    exact .inr ⟨x, (Option.filter_eq_some_iff.1 hx).2, hw.symm⟩

end Operand

namespace Classification

variable {c : Classification} {field : String}

/-- **A converted text is converted to the same operand again.** -/
theorem coerce_toJson_coerceText (s : String)
    (hyear : ∀ t, c.coerceText field s = .instant t → 0 ≤ t.date.year ∧ t.date.year ≤ 9999) :
    c.coerce field (c.coerceText field s).toJson = c.coerceText field s := by
  -- a text that is kept is the same text for the second conversion
  have hkept : c.coerceText field s = .string s →
      c.coerce field (c.coerceText field s).toJson = c.coerceText field s := by
    intro hs
    rw [hs]
    exact hs
  cases hcategory : c.category field with
  | date =>
    cases hread : Instant.read? s with
    | none => exact hkept (by rw [coerceText, hcategory, convert, hread]; rfl)
    | some t =>
      have hinstant : c.coerceText field s = .instant t := by
        rw [coerceText, hcategory, convert, hread]
        rfl
      obtain ⟨hlow, hhigh⟩ := hyear t hinstant
      have hagain := Instant.read?_text (Instant.isValid_of_read? hread) hlow hhigh
      rw [hinstant, Operand.toJson, coerce, coerceText, hcategory, convert, hagain]
      rfl
  | boolean =>
    rw [coerceText, hcategory]
    rfl
  | numeric =>
    cases hnumber : Operand.number? s with
    | none => exact hkept (by rw [coerceText, hcategory, convert, hnumber]; rfl)
    | some w =>
      have hw : c.coerceText field s = w := by
        rw [coerceText, hcategory, convert, hnumber]
        rfl
      rw [hw]
      rcases Operand.number?_cases hnumber with ⟨i, hfits, rfl⟩ | ⟨x, hfinite, rfl⟩
      · exact if_pos hfits
      · rw [Operand.toJson, if_pos hfinite]
        rfl
  | other => exact hkept (by rw [coerceText, hcategory, convert])

/-- What is no text is passed on both times. -/
theorem coerce_toJson_ofJson {v : Json} (hrange : v.inRange = true) (hstring : ∀ s, v ≠ .string s) :
    c.coerce field (Operand.ofJson v).toJson = .ofJson v := by
  have hne : ∀ s, (Operand.ofJson v).toJson ≠ .string s := by
    rw [Operand.toJson_ofJson hrange]
    exact Json.doubled_ne_string hstring
  rw [coerce_of_ne_string c field hne, Operand.ofJson_toJson_ofJson hrange]

/-- **Conversion by way of JSON does nothing the second time**, unless the first made an instant
whose year does not have four digits; and an instant that is read from any text reads back from its
own. -/
theorem coerce_toJson_coerce_and_read?_text :
    (∀ (c : Classification) (field : String) (v : Json), v.inRange = true →
      (∀ t, c.coerce field v = .instant t → 0 ≤ t.date.year ∧ t.date.year ≤ 9999) →
      c.coerce field (c.coerce field v).toJson = c.coerce field v) ∧
    ∀ (s : String) (t : Instant), Instant.read? s = some t → 0 ≤ t.date.year →
      t.date.year ≤ 9999 → Instant.read? t.text = some t := by
  refine ⟨fun c field v hrange hyear => ?_,
    fun s t hread => Instant.read?_text (Instant.isValid_of_read? hread)⟩
  by_cases hstring : ∃ s, v = .string s
  · obtain ⟨s, rfl⟩ := hstring
    exact coerce_toJson_coerceText s hyear
  · have hne : ∀ s, v ≠ .string s := fun s hs => hstring ⟨s, hs⟩
    rw [coerce_of_ne_string c field hne, coerce_toJson_ofJson hrange hne]

/-- Half a second into the leap second at the end of 2016, told by a clock ahead of UTC in the year
after; and a list with a number beyond the signed 64-bit range. -/
theorem coerce_toJson_coerce_and_read?_text_leapSecond :
    let c : Classification := ⟨["at"], [], []⟩
    let s := "2017-01-01T01:29:60.5+01:30"
    let t : Instant := ⟨⟨2016, 12, 31⟩, 23, 59, 60, 500000000⟩
    let v : Json := .array [.int 18446744073709551615, .string s]
    (Instant.read? s = some t ∧ t.text = "2016-12-31T23:59:60.500Z" ∧ v.inRange = true) ∧
      c.coerce "at" (.string t.text) = .instant t ∧ Instant.read? t.text = some t ∧
      c.coerce "at" (c.coerce "at" v).toJson = c.coerce "at" v := by
  intro c s t v
  have hread : Instant.read? s = some t := by decide +kernel
  have hcoerce : c.coerce "at" (.string s) = .instant t := by
    show ((Instant.read? s).map Operand.instant).getD (.string s) = _
    rw [hread]
    rfl
  have hyear : ∀ u, c.coerce "at" (.string s) = .instant u →
      0 ≤ u.date.year ∧ u.date.year ≤ 9999 := by
    intro u hu
    obtain rfl : t = u := Operand.instant.inj (hcoerce.symm.trans hu)
    decide
  obtain ⟨hagain, hinstants⟩ := coerce_toJson_coerce_and_read?_text
  have hstring := hagain c "at" (.string s) rfl hyear
  rw [hcoerce] at hstring
  exact ⟨⟨hread, by decide +kernel, rfl⟩, hstring, hinstants s t hread (by decide) (by decide),
    hagain c "at" v rfl nofun⟩

end Classification

end Filter

end Sieve
