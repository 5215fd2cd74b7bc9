import Overlay.Time.Instant

/-!
# Instants as text

Three texts of an instant: `Instant.text` for a reader, `Instant.isoMillis` with exactly three
fraction digits for interchange, and `Instant.isoExact` with as many as it needs.
-/

namespace Overlay

/-- A natural number with zeros in front to at least this width. -/
def zeroPadded (width n : Nat) : List Char :=
  let ds := Nat.toDigits 10 n
  List.replicate (width - ds.length) '0' ++ ds

namespace Instant

/-- Four digits for the years 0 to 9999; all others carry a sign. -/
def yearChars (year : Int) : List Char :=
  if year < 0 then '-' :: zeroPadded 4 year.natAbs
  else if year ≤ 9999 then zeroPadded 4 year.natAbs
  else '+' :: zeroPadded 4 year.natAbs

/-- The names of the days, from Sunday. -/
def weekdayNames : List String := ["Sun", "Mon", "Tue", "Wed", "Thu", "Fri", "Sat"]

/-- The names of the months, from January. -/
def monthNames : List String :=
  ["Jan", "Feb", "Mar", "Apr", "May", "Jun", "Jul", "Aug", "Sep", "Oct", "Nov", "Dec"]

/-- The time of day, with colons. -/
def clockChars (t : Instant) : List Char :=
  zeroPadded 2 t.hour ++ ':' :: zeroPadded 2 t.minute ++ ':' :: zeroPadded 2 t.second

/-- The day and the time of day, with a `T` between them. -/
def isoChars (t : Instant) : List Char :=
  yearChars t.civil.year ++ '-' :: zeroPadded 2 t.civil.month ++ '-' :: zeroPadded 2 t.civil.day
    ++ 'T' :: t.clockChars

/-- The text shown to a reader, such as `Thu Jan 01 1970 00:00:00 GMT+0000`. -/
def text (t : Instant) : String :=
  let weekday := weekdayNames.getD (Civil.weekday t.dayNumber) ""
  let month := monthNames.getD (t.civil.month - 1) ""
  String.ofList <| weekday.toList ++ ' ' :: month.toList ++ ' ' :: zeroPadded 2 t.civil.day
    ++ ' ' :: yearChars t.civil.year ++ ' ' :: t.clockChars ++ " GMT+0000".toList

/-- The interchange text, such as `1970-01-01T00:00:00.000Z`; milliseconds are cut, not rounded. -/
def isoMillis (t : Instant) : String :=
  String.ofList <| t.isoChars ++ '.' :: zeroPadded 3 (t.subsecond / 1000000) ++ ['Z']

/-- The fraction of a second in groups of three digits, none if it is zero. -/
def fractionChars (t : Instant) : List Char :=
  if t.subsecond = 0 then []
  else if t.subsecond % 1000000 = 0 then '.' :: zeroPadded 3 (t.subsecond / 1000000)
  else if t.subsecond % 1000 = 0 then '.' :: zeroPadded 6 (t.subsecond / 1000)
  else '.' :: zeroPadded 9 t.subsecond

/-- The text that keeps every nanosecond, such as `1970-01-01T00:00:00+00:00`. -/
def isoExact (t : Instant) : String :=
  String.ofList <| t.isoChars ++ t.fractionChars ++ "+00:00".toList

end Instant

end Overlay
