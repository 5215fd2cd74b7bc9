import Overlay.Number.Numeral
import Overlay.Text.Blank
import Overlay.Time.Instant

/-!
# Reading instants

Two forms of text denote an instant: an RFC 3339 timestamp (`Timestamp.read?`), and a day
`year-month-day` that stands for its midnight (`DayText.read?`). `Instant.parse?` reads either.
-/

namespace Overlay

/-- Between `least` and `most` digits in front, as a number; what follows is returned. -/
def takeNumber? (least most : Nat) (cs : List Char) : Option (Nat × List Char) :=
  let digits := (cs.take most).takeWhile Char.isDigit
  if digits.length < least then none
  else some (natOfDigits digits, cs.drop digits.length)

/-- The rest after this character. -/
def expect? (c : Char) : List Char → Option (List Char)
  | [] => none
  | d :: rest => if d = c then some rest else none

namespace Timestamp

/-- The mark between day and time. -/
def separator? : List Char → Option (List Char)
  | 'T' :: rest => some rest
  | 't' :: rest => some rest
  | ' ' :: rest => some rest
  | _ => none

/-- An optional fraction of a second in nanoseconds; digits after the ninth are skipped. -/
def fraction? : List Char → Option (Nat × List Char)
  | '.' :: rest =>
    let digits := (rest.take 9).takeWhile Char.isDigit
    if digits.isEmpty then none
    else some (natOfDigits digits * pow10 (9 - digits.length), rest.dropWhile Char.isDigit)
  | cs => some (0, cs)

/-- The sign of an offset: plus, hyphen or the minus sign proper. -/
def offsetSign? : List Char → Option (Int × List Char)
  | '+' :: rest => some (1, rest)
  | '-' :: rest => some (-1, rest)
  | '\u2212' :: rest => some (-1, rest)
  | _ => none

/-- The offset from universal time in seconds, up to the end of the text. -/
def offset? : List Char → Option Int
  | ['Z'] => some 0
  | ['z'] => some 0
  | cs => do
    let (sign, cs) ← offsetSign? cs
    let (hours, cs) ← takeNumber? 2 2 cs
    let cs ← expect? ':' cs
    let (minutes, cs) ← takeNumber? 2 2 cs
    if hours ≤ 23 ∧ minutes ≤ 59 ∧ cs = [] then some (sign * (hours * 3600 + minutes * 60 : Nat))
    else none

/-- A timestamp with the offset of its clock. The second 60 is a leap second. -/
def read? (cs : List Char) : Option Instant := do
  let (year, cs) ← takeNumber? 4 4 cs
  let cs ← expect? '-' cs
  let (month, cs) ← takeNumber? 2 2 cs
  let cs ← expect? '-' cs
  let (day, cs) ← takeNumber? 2 2 cs
  let cs ← separator? cs
  let (hour, cs) ← takeNumber? 2 2 cs
  let cs ← expect? ':' cs
  let (minute, cs) ← takeNumber? 2 2 cs
  let cs ← expect? ':' cs
  let (second, cs) ← takeNumber? 2 2 cs
  let (nanos, cs) ← fraction? cs
  let offset ← offset? cs
  let date : Civil := ⟨year, month, day⟩
  if date.IsValid ∧ hour ≤ 23 ∧ minute ≤ 59 ∧ second ≤ 60 then
    let clock := hour * 3600 + minute * 60 + min second 59
    let nanos := if second = 60 then nanos + 1000000000 else nanos
    Instant.ofSeconds? (date.days * 86400 + clock - offset) nanos
  else none

end Timestamp

namespace DayText

/-- A year: any digits after a sign, at most four without one. -/
def year? (cs : List Char) : Option (Int × List Char) :=
  match skipBlank cs with
  | '-' :: rest => (takeNumber? 1 rest.length rest).map fun (n, rest) => (-(n : Int), rest)
  | '+' :: rest => (takeNumber? 1 rest.length rest).map fun (n, rest) => ((n : Int), rest)
  | cs => (takeNumber? 1 4 cs).map fun (n, rest) => ((n : Int), rest)

/-- The midnight at the start of a day. Blanks may stand before each number. -/
def read? (cs : List Char) : Option Instant := do
  let (year, cs) ← year? cs
  let cs ← expect? '-' cs
  let (month, cs) ← takeNumber? 1 2 (skipBlank cs)
  let cs ← expect? '-' cs
  let (day, cs) ← takeNumber? 1 2 (skipBlank cs)
  let date : Civil := ⟨year, month, day⟩
  if date.IsValid ∧ cs = [] then Instant.ofSeconds? (date.days * 86400) 0 else none

end DayText

/-- The instant that text denotes, blanks around it aside. -/
def Instant.parse? (s : String) : Option Instant :=
  let cs := (trim s).toList
  (Timestamp.read? cs).or (DayText.read? cs)

end Overlay
