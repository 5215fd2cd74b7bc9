import Overlay.Number.Binary64

/-!
# Reading numbers

`Binary64.ofDecimal` is the number nearest to a decimal, and `Binary64.parse?` reads a numeral: an
optional sign, then digits with an optional point and exponent, or the name of an infinity or of
NaN in any case.
-/

namespace Overlay

/-- The value of a digit. -/
def digitValue (c : Char) : Nat := c.toNat - '0'.toNat

/-- The natural number that digits denote. -/
def natOfDigits (cs : List Char) : Nat := cs.foldl (fun n c => 10 * n + digitValue c) 0

/-- The digits in front, and what follows them. -/
def spanDigits (cs : List Char) : List Char × List Char := cs.span Char.isDigit

/-- The number nearest to `digits * 10 ^ scale`, ties to even. Scales so far out that the result
is zero or infinite are not computed with. -/
def Binary64.ofDecimal (negative : Bool) (digits : Nat) (scale : Int) : Binary64 :=
  if digits = 0 ∨ scale < -(400 + Nat.log2 digits : Int) then .finite negative .zero
  else if 400 < scale then .infinity negative
  else
    let num := digits * pow10 scale.toNat * Magnitude.unitsPerOne
    ofMagnitude? negative (Magnitude.round? num (pow10 (-scale).toNat))

namespace Numeral

/-- An optional sign; true for a minus. -/
def sign : List Char → Bool × List Char
  | '-' :: rest => (true, rest)
  | '+' :: rest => (false, rest)
  | cs => (false, cs)

/-- An optional point and the digits after it. -/
def fraction : List Char → List Char × List Char
  | '.' :: rest => spanDigits rest
  | cs => ([], cs)

/-- What follows the mark of an exponent: a signed run of digits up to the end. -/
def power? (cs : List Char) : Option Int :=
  let (negative, cs) := sign cs
  let (digits, rest) := spanDigits cs
  if digits.isEmpty || !rest.isEmpty then none
  else some (if negative then -(natOfDigits digits : Int) else natOfDigits digits)

/-- The power of ten at the end of a numeral, zero if there is none. -/
def exponent? : List Char → Option Int
  | [] => some 0
  | 'e' :: rest => power? rest
  | 'E' :: rest => power? rest
  | _ => none

/-- An unsigned decimal. -/
def decimal? (negative : Bool) (cs : List Char) : Option Binary64 :=
  let (whole, rest) := spanDigits cs
  let (part, rest) := fraction rest
  if whole.isEmpty && part.isEmpty then none
  else (exponent? rest).map fun power =>
    .ofDecimal negative (natOfDigits (whole ++ part)) (power - part.length)

end Numeral

/-- The number that a numeral denotes, correctly rounded. -/
def Binary64.parse? (s : String) : Option Binary64 :=
  let (negative, cs) := Numeral.sign s.toList
  let name := String.ofList (cs.map Char.toLower)
  if name = "inf" ∨ name = "infinity" then some (.infinity negative)
  else if name = "nan" then some .nan
  else Numeral.decimal? negative cs

end Overlay
