import Overlay.Number.Binary64

/-!
# Decimal digits of a number

A `Decimal` is a natural number of decimal digits at a scale. `Magnitude.shortest` chooses, for a
nonzero magnitude, the fewest digits that still round back to it, and of those the nearest ones;
a `Tie` decides between two that are equally near. `Decimal.positional` and `Decimal.scientific`
are the two ways to write one.
-/

namespace Overlay

/-- The decimal number `digits * 10 ^ scale`. -/
structure Decimal where
  /-- The digits, read as a natural number. -/
  digits : Nat
  /-- The power of ten of the last digit. -/
  scale : Int
  deriving DecidableEq, Repr

/-- Which of two equally near decimals is taken. -/
inductive Tie
  /-- The one whose last digit is even. -/
  | even
  /-- The larger one. -/
  | up
  deriving DecidableEq, Repr

namespace Decimal

/-- The digits as text. -/
def digitChars (d : Decimal) : List Char := Nat.toDigits 10 d.digits

/-- The power of ten of the first digit. -/
def exponent (d : Decimal) : Int := d.scale + (d.digitChars.length - 1 : Nat)

/-- The same number without zeros at the end of its digits. -/
def strip (d : Decimal) : Decimal :=
  let zeros := (d.digitChars.reverse.takeWhile (· == '0')).length
  if d.digits = 0 then d else ⟨d.digits / pow10 zeros, d.scale + zeros⟩

/-- Written without an exponent, zeros filled in on either side of the digits. -/
def positional (d : Decimal) : List Char :=
  let ds := d.digitChars
  if 0 ≤ d.scale then ds ++ List.replicate d.scale.toNat '0'
  else
    let places := (-d.scale).toNat
    let ds := List.replicate (places + 1 - ds.length) '0' ++ ds
    ds.take (ds.length - places) ++ '.' :: ds.drop (ds.length - places)

/-- Written with one digit before the point and a signed exponent. -/
def scientific (d : Decimal) : List Char :=
  let sign := if d.exponent < 0 then '-' else '+'
  let power := 'e' :: sign :: Nat.toDigits 10 d.exponent.natAbs
  match d.digitChars with
  | [] => power
  | [c] => c :: power
  | c :: rest => c :: '.' :: rest ++ power

end Decimal

namespace Magnitude

/-- The interval of the reals that round to a magnitude, in quarters of a unit. -/
structure Interval where
  /-- The lower end. -/
  lower : Nat
  /-- The magnitude itself. -/
  value : Nat
  /-- The upper end. -/
  upper : Nat
  /-- Whether the ends round to the magnitude too. -/
  closed : Bool

/-- The ends lie halfway to the neighbours, and belong to the even mantissa. -/
def interval (x : Magnitude) : Interval where
  lower := 4 * x.units -
    if x.mantissa = pow2 52 ∧ x.exponent ≠ 0 then pow2 x.exponent else 2 * pow2 x.exponent
  value := 4 * x.units
  upper := 4 * x.units + 2 * pow2 x.exponent
  closed := x.mantissa % 2 == 0

/-- The power of ten of the first digit of a nonzero magnitude. -/
def decimalExponent (x : Magnitude) : Int :=
  ((Nat.toDigits 10 (x.units * pow10 324 / unitsPerOne)).length : Int) - 325

/-- Of the two multiples of `10 ^ scale` around the magnitude, the one that rounds to it, the
nearer one if both do. -/
def onGrid? (tie : Tie) (i : Interval) (scale : Int) : Option Nat :=
  let quarters := 4 * unitsPerOne
  let num := pow10 (-scale).toNat
  let den := quarters * pow10 scale.toNat
  let inside (c : Nat) : Bool :=
    if i.closed then i.lower * num ≤ c * den && c * den ≤ i.upper * num
    else i.lower * num < c * den && c * den < i.upper * num
  let c := i.value * num / den
  match inside c, inside (c + 1) with
  | false, false => none
  | true, false => some c
  | false, true => some (c + 1)
  | true, true =>
    match compare (i.value * num - c * den) ((c + 1) * den - i.value * num), tie with
    | .lt, _ => some c
    | .gt, _ => some (c + 1)
    | .eq, .up => some (c + 1)
    | .eq, .even => if c % 2 = 0 then some c else some (c + 1)

/-- The fewest digits that round back to a nonzero magnitude; seventeen always do. -/
def shortest (tie : Tie) (x : Magnitude) : Decimal :=
  let first := x.decimalExponent
  let found := (List.range 17).findSome? fun (n : Nat) =>
    (onGrid? tie x.interval (first - n)).map fun c => (⟨c, first - n⟩ : Decimal)
  (found.getD ⟨0, 0⟩).strip

end Magnitude

end Overlay
