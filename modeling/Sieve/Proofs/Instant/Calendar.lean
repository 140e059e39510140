import Sieve.Instant.Basic

/-!
# Days of the calendar

A day of the calendar has a day after and a day before it, and both are in the calendar unless they
lie in a year that is not told. A shift goes no further than to one of them, and so leaves an
instant in the calendar unless its year is the first or the last.

## Main results

* `Date.isValid_next`, `Date.isValid_previous` — the days next to a day of the calendar
* `Instant.isValid_shift` — a shift
* `Instant.shift_zero` — no shift
-/

namespace Sieve

namespace Date

/-- A month has at least 28 days and at most 31, and a number that is no month has none. -/
theorem daysInMonth_cases (year : Int) (month : Nat) :
    (1 ≤ month ∧ month ≤ 12 ∧ 28 ≤ daysInMonth year month ∧ daysInMonth year month ≤ 31) ∨
      ((month = 0 ∨ 12 < month) ∧ daysInMonth year month = 0) := by
  unfold daysInMonth
  split
  case h_12 => split <;> omega
  case h_13 => grind
  all_goals omega

theorem isValid_iff (d : Date) :
    d.isValid = true ↔ yearRange.1 ≤ d.year ∧ d.year ≤ yearRange.2 ∧
      1 ≤ d.day ∧ d.day ≤ daysInMonth d.year d.month := by
  simp [isValid, and_assoc]

variable {d : Date}

/-- A day of the calendar has a month, and a place in it. -/
theorem bounds_of_isValid (h : d.isValid = true) :
    1 ≤ d.month ∧ d.month ≤ 12 ∧ 1 ≤ d.day ∧ d.day ≤ 31 := by
  obtain ⟨-, -, hday, hlast⟩ := d.isValid_iff.1 h
  have hmonth := daysInMonth_cases d.year d.month
  omega

/-- **The day after is in the calendar**, unless the year is the last. -/
theorem isValid_next (h : d.isValid = true) (hyear : d.year < yearRange.2) :
    d.next.isValid = true := by
  obtain ⟨hfirst, hlast, hday, -⟩ := d.isValid_iff.1 h
  rw [next]
  split
  · next hinside => exact (isValid_iff _).2 ⟨hfirst, hlast, Nat.le_add_left 1 d.day, hinside⟩
  · split
    · next hmonth =>
      have hdays := daysInMonth_cases d.year (d.month + 1)
      exact (isValid_iff _).2 ⟨hfirst, hlast, Nat.le_refl 1, by dsimp only; omega⟩
    · have hdays : daysInMonth (d.year + 1) 1 = 31 := rfl
      exact (isValid_iff _).2 ⟨by dsimp only; omega, by dsimp only; omega, Nat.le_refl 1,
        by dsimp only; omega⟩

/-- **The day before is in the calendar**, unless the year is the first. -/
theorem isValid_previous (h : d.isValid = true) (hyear : yearRange.1 < d.year) :
    d.previous.isValid = true := by
  obtain ⟨hfirst, hlast, hday, hdays⟩ := d.isValid_iff.1 h
  rw [previous]
  split
  · exact (isValid_iff _).2 ⟨hfirst, hlast, by dsimp only; omega, by dsimp only; omega⟩
  · split
    · next hmonth =>
      have hbounds := bounds_of_isValid h
      have hbefore := daysInMonth_cases d.year (d.month - 1)
      exact (isValid_iff _).2 ⟨hfirst, hlast, by dsimp only; omega, Nat.le_refl _⟩
    · have hdays : daysInMonth (d.year - 1) 12 = 31 := rfl
      exact (isValid_iff _).2 ⟨by dsimp only; omega, by dsimp only; omega, by dsimp only; omega,
        by dsimp only; omega⟩

end Date

namespace Instant

variable {t : Instant}

theorem isValid_iff (t : Instant) : t.isValid = true ↔ t.date.isValid = true ∧ t.hour < 24 ∧
    t.minute < 60 ∧ t.second ≤ 60 ∧ t.nano < Nat.pow 10 9 := by
  simp [isValid, and_assoc]

/-- **A shift leaves an instant in the calendar**, unless its year is the first or the last. -/
theorem isValid_shift (h : t.isValid = true) (minutes : Int)
    (hfirst : Date.yearRange.1 < t.date.year) (hlast : t.date.year < Date.yearRange.2) :
    (t.shift minutes).isValid = true := by
  obtain ⟨hdate, -, -, hsecond, hnano⟩ := t.isValid_iff.1 h
  refine (isValid_iff _).2 ⟨?_, ?_, ?_, hsecond, hnano⟩
  · dsimp only [shift]
    split
    · exact Date.isValid_previous hdate hfirst
    · split
      · exact hdate
      · exact Date.isValid_next hdate hlast
  · dsimp only [shift, minutesPerDay]
    omega
  · exact Nat.mod_lt _ (by decide)

theorem shift_zero (h : t.isValid = true) : t.shift 0 = t := by
  obtain ⟨-, hhour, hminute, -, -⟩ := t.isValid_iff.1 h
  have hinDay : ((t.hour * 60 + t.minute + 0 : Int) % minutesPerDay).toNat =
      t.hour * 60 + t.minute := by
    rw [minutesPerDay]
    omega
  have hhours : (t.hour * 60 + t.minute) / 60 = t.hour := by omega
  have hminutes : (t.hour * 60 + t.minute) % 60 = t.minute := by omega
  simp only [shift]
  rw [hinDay, hhours, hminutes, if_neg (by omega), if_pos (by rw [minutesPerDay]; omega)]

end Instant

end Sieve
