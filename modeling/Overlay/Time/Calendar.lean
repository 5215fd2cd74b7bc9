/-!
# The proleptic Gregorian calendar

Days are counted from 1 January 1970. `Civil.days` and `Civil.ofDays` convert between a day
count and a year, month and day; both count years from March, so that a leap day is the last day
of its year, and work in cycles of 400 years.
-/

namespace Overlay

/-- A day of the Gregorian calendar. -/
structure Civil where
  /-- The year; the year before 1 is 0. -/
  year : Int
  /-- The month, from 1. -/
  month : Nat
  /-- The day of the month, from 1. -/
  day : Nat
  deriving DecidableEq, Repr

namespace Civil

/-- Every fourth year is a leap year, but of the centuries only every fourth. -/
def isLeapYear (year : Int) : Bool :=
  year % 4 == 0 && (year % 100 != 0 || year % 400 == 0)

/-- The number of days of a month. -/
def daysInMonth (year : Int) (month : Nat) : Nat :=
  if month = 2 then if isLeapYear year then 29 else 28
  else if month = 4 ∨ month = 6 ∨ month = 9 ∨ month = 11 then 30
  else 31

/-- The day exists. -/
def IsValid (d : Civil) : Prop :=
  1 ≤ d.month ∧ d.month ≤ 12 ∧ 1 ≤ d.day ∧ d.day ≤ daysInMonth d.year d.month

instance (d : Civil) : Decidable d.IsValid := inferInstanceAs (Decidable (_ ∧ _))

/-- The days in a cycle of 400 years. -/
def cycleDays : Nat := 146097

/-- The days from 1 March of the year 0 to 1 January 1970. -/
def epochShift : Int := 719468

/-- The number of days since 1 January 1970. -/
def days (d : Civil) : Int :=
  let year := if d.month ≤ 2 then d.year - 1 else d.year
  let yearOfCycle := (year % 400).toNat
  let monthFromMarch := (d.month + 9) % 12
  let dayOfYear := (153 * monthFromMarch + 2) / 5 + d.day - 1
  let dayOfCycle := yearOfCycle * 365 + yearOfCycle / 4 - yearOfCycle / 100 + dayOfYear
  year / 400 * cycleDays + dayOfCycle - epochShift

/-- The day that many days after 1 January 1970. -/
def ofDays (n : Int) : Civil :=
  let shifted := n + epochShift
  let dayOfCycle := (shifted % cycleDays).toNat
  let yearOfCycle :=
    (dayOfCycle - dayOfCycle / 1460 + dayOfCycle / 36524 - dayOfCycle / 146096) / 365
  let dayOfYear := dayOfCycle - (365 * yearOfCycle + yearOfCycle / 4 - yearOfCycle / 100)
  let monthFromMarch := (5 * dayOfYear + 2) / 153
  let month := if monthFromMarch < 10 then monthFromMarch + 3 else monthFromMarch - 9
  let year := shifted / cycleDays * 400 + yearOfCycle
  { year := if month ≤ 2 then year + 1 else year
    month
    day := dayOfYear - (153 * monthFromMarch + 2) / 5 + 1 }

/-- The day of the week, counted from Sunday. -/
def weekday (n : Int) : Nat := ((n + 4) % 7).toNat

end Civil

end Overlay
