import Overlay.Time.Calendar

/-!
# Instants

An `Instant` is a point of universal time between the years -262143 and 262142, to the
nanosecond. A leap second is the second before it with a nanosecond count of a thousand million
or more; counted in milliseconds it coincides with the second after it.
-/

namespace Overlay

namespace Instant

/-- The first second of the year -262143. -/
def firstSecond : Int := Civil.days ⟨-262143, 1, 1⟩ * 86400

/-- The last second of the year 262142. -/
def lastSecond : Int := (Civil.days ⟨262142, 12, 31⟩ + 1) * 86400 - 1

end Instant

/-- A point of universal time. -/
structure Instant where
  /-- Whole seconds since the start of 1970, rounded down. -/
  seconds : Int
  /-- Nanoseconds on top; from a thousand million on, a leap second. -/
  nanos : Nat
  /-- The instant lies in the years that are supported. -/
  inRange : Instant.firstSecond ≤ seconds ∧ seconds ≤ Instant.lastSecond ∧ nanos < 2000000000
  deriving DecidableEq

namespace Instant

/-- The instant at this second, if it is supported. -/
def ofSeconds? (seconds : Int) (nanos : Nat) : Option Instant :=
  if h : firstSecond ≤ seconds ∧ seconds ≤ lastSecond ∧ nanos < 2000000000 then
    some ⟨seconds, nanos, h⟩
  else none

/-- The nearest count that fits 64 bits with a sign. -/
def clamp64 (n : Int) : Int := max (-9223372036854775808) (min n 9223372036854775807)

/-- The instant this many milliseconds after the start of 1970, if it is supported. -/
def ofMillis? (millis : Int) : Option Instant :=
  ofSeconds? (millis / 1000) ((millis % 1000).toNat * 1000000)

/-- Milliseconds since the start of 1970, rounded down. -/
def millis (t : Instant) : Int := t.seconds * 1000 + (t.nanos / 1000000 : Nat)

/-- The days since the start of 1970. -/
def dayNumber (t : Instant) : Int := t.seconds / 86400

/-- The calendar day. -/
def civil (t : Instant) : Civil := Civil.ofDays t.dayNumber

/-- Seconds since midnight. -/
def secondOfDay (t : Instant) : Nat := (t.seconds % 86400).toNat

/-- The hour of the day. -/
def hour (t : Instant) : Nat := t.secondOfDay / 3600

/-- The minute of the hour. -/
def minute (t : Instant) : Nat := t.secondOfDay / 60 % 60

/-- The second of the minute; 60 in a leap second. -/
def second (t : Instant) : Nat := t.secondOfDay % 60 + t.nanos / 1000000000

/-- Nanoseconds since the start of the second. -/
def subsecond (t : Instant) : Nat := t.nanos % 1000000000

theorem ofSeconds?_eq_some_iff {s : Int} {n : Nat} {t : Instant} :
    ofSeconds? s n = some t ↔ t.seconds = s ∧ t.nanos = n := by
  obtain ⟨s', n', h⟩ := t
  unfold ofSeconds?
  split
  · simp [eq_comm]
  · rename_i hn
    simp only [reduceCtorEq, false_iff, not_and]
    rintro rfl rfl
    exact hn h

end Instant

end Overlay
