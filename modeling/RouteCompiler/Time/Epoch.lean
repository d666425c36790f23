import RouteCompiler.Time.Instant

/-!
# Counting seconds

Clocks count the seconds since 1970 began, leap seconds left out.  This module
finds the calendar date of such a count.

Days are counted from the first of March of the year 0, so that the day which
only leap years have is the last of a year.  Four hundred years have as many
days as any other four hundred.
-/

namespace RouteCompiler

namespace Date

/-- The number of days in four hundred years. -/
def daysInCycle : Nat := 146097

/-- The number of days from the first of March of the year 0 to the beginning of
1970. -/
def daysToEpoch : Nat := 719468

/-- The year of a day within four hundred years. -/
def yearInCycle (day : Nat) : Nat :=
  (day - day / 1460 + day / 36524 - day / 146096) / 365

/-- The first day of a year within four hundred years. -/
def firstDay (year : Nat) : Nat :=
  365 * year + year / 4 - year / 100

/-- The date of a day counted from the first of March of the year 0. -/
def ofDays? (days : Nat) : Option Date :=
  let day := days % daysInCycle
  let year := yearInCycle day
  let dayOfYear := day - firstDay year
  let march := (5 * dayOfYear + 2) / 153
  let dayOfMonth := dayOfYear - (153 * march + 2) / 5 + 1
  let month := if march < 10 then march + 3 else march - 9
  let next := if month ≤ 2 then 1 else 0
  of? (400 * (days / daysInCycle) + year + next : Nat) month dayOfMonth

/-- The number of a day, counted from the first of March of the year 0. -/
def days (d : Date) : Int :=
  let year := if d.month ≤ 2 then d.year - 1 else d.year
  let march := if d.month ≤ 2 then d.month + 9 else d.month - 3
  365 * year + year / 4 - year / 100 + year / 400 + ((153 * march + 2) / 5 + d.day - 1 : Nat)

end Date

namespace Instant

/-- The moment at which 1970 begins. -/
def epoch : Instant where
  date := ⟨1970, 1, 1, by decide, by decide, by decide, by decide, by decide, by decide⟩
  hour := 0
  minute := 0
  second := 0
  nanosecond := 0
  hour_lt := by decide
  minute_lt := by decide
  second_le := by decide
  nanosecond_lt := by decide

/-- The moment so many seconds and nanoseconds after 1970 began, if its year can
be represented. -/
def ofEpoch? (seconds nanosecond : Nat) : Option Instant := do
  let date ← Date.ofDays? (Date.daysToEpoch + seconds / 86400)
  of? date (seconds / 3600 % 24) (seconds / 60 % 60) (seconds % 60) nanosecond

/-- The number of nanoseconds between the beginning of 1970 and a moment. -/
def sinceEpoch (t : Instant) : Int :=
  let seconds := (t.date.days - Date.daysToEpoch) * 86400 + t.hour * 3600 + t.minute * 60 + t.second
  seconds * 1000000000 + t.nanosecond

/-- The number of whole milliseconds from one moment to another. -/
def millisecondsTo (s t : Instant) : Int :=
  (t.sinceEpoch - s.sinceEpoch).tdiv 1000000

end Instant

end RouteCompiler
