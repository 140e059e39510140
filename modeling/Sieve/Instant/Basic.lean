/-!
# Instants

A point in time, as its date and time of day in UTC. Dates are those of the Gregorian calendar,
extended in both directions; the year before year 1 is year 0. Second 60 is a leap second, which
any minute may have.

Shifting an instant by a time zone moves it by less than a day, so the date changes by one day at
most and no count of days is needed.

## Main definitions

* `Date`, `Date.next`, `Date.previous` — days of the calendar
* `Instant`, `Instant.Valid` — a date with a time of day
* `Instant.shift` — moves an instant by minutes
-/

namespace Sieve

/-- A day of the calendar. -/
structure Date where
  year : Int
  month : Nat
  day : Nat
deriving Repr, DecidableEq, Inhabited

namespace Date

/-- A year with 366 days. -/
def isLeap (year : Int) : Bool := year % 4 == 0 && (year % 100 != 0 || year % 400 == 0)

/-- Number of days of a month; zero for numbers that are no month. -/
def daysInMonth (year : Int) (month : Nat) : Nat :=
  match month with
  | 1 | 3 | 5 | 7 | 8 | 10 | 12 => 31
  | 4 | 6 | 9 | 11 => 30
  | 2 => if isLeap year then 29 else 28
  | _ => 0

/-- The first and the last year that are told. -/
def yearRange : Int × Int := (-262143, 262142)

/-- The date is in the calendar and its year is told. -/
def isValid (d : Date) : Bool :=
  yearRange.1 ≤ d.year && d.year ≤ yearRange.2 && 1 ≤ d.day && d.day ≤ daysInMonth d.year d.month

/-- The day after. -/
def next (d : Date) : Date :=
  if d.day < daysInMonth d.year d.month then { d with day := d.day + 1 }
  else if d.month < 12 then ⟨d.year, d.month + 1, 1⟩
  else ⟨d.year + 1, 1, 1⟩

/-- The day before. -/
def previous (d : Date) : Date :=
  if 1 < d.day then { d with day := d.day - 1 }
  else if 1 < d.month then ⟨d.year, d.month - 1, daysInMonth d.year (d.month - 1)⟩
  else ⟨d.year - 1, 12, 31⟩

end Date

/-- A point in time in UTC, to the nanosecond. -/
structure Instant where
  date : Date
  hour : Nat
  minute : Nat
  second : Nat
  nano : Nat
deriving Repr, DecidableEq, Inhabited

namespace Instant

/-- The date and the time of day exist; second 60 is a leap second. -/
def isValid (t : Instant) : Bool :=
  t.date.isValid && t.hour < 24 && t.minute < 60 && t.second ≤ 60 && t.nano < Nat.pow 10 9

/-- Minutes in a day. -/
def minutesPerDay : Int := 1440

/-- Moves an instant by `minutes`, less than a day in size. The second, a leap second too, stays as
it is. -/
def shift (t : Instant) (minutes : Int) : Instant :=
  let total : Int := t.hour * 60 + t.minute + minutes
  let date :=
    if total < 0 then t.date.previous
    else if total < minutesPerDay then t.date
    else t.date.next
  let inDay := (total % minutesPerDay).toNat
  { t with date := date, hour := inDay / 60, minute := inDay % 60 }

end Instant

end Sieve
