import Overlay.Number.Decimal
import Overlay.Number.Numeral

/-!
# Numbers in JSON

`Json.readNumber?` reads a number in two rounded steps: the leading digits that fit 64 bits are
one factor, a power of ten is the other. Integers of at most 64 bits are read exactly rounded.
`Json.numberChars` writes safe integers as integers and all other numbers with the fewest digits
that read back, in scientific notation outside of `10 ^ (-5)` to `10 ^ 16`.
-/

namespace Overlay.Json

/-! ### Reading -/

/-- Appends digits to a significand as long as it fits 64 bits, and returns the digits left. -/
def absorb (significand : Nat) : List Char → Nat × List Char
  | [] => (significand, [])
  | c :: cs =>
    let next := 10 * significand + digitValue c
    if next < pow2 64 then absorb next cs else (significand, c :: cs)

/-- `significand * 10 ^ exponent` in steps that each round: the significand, the power of ten, and
their product or quotient. None beyond the largest number. -/
def scaled? (significand : Nat) (exponent : Int) : Option Magnitude := do
  let x ← Magnitude.ofNat? significand
  if x = .zero ∨ exponent < -616 then some .zero
  else if 308 < exponent then none
  else if 0 ≤ exponent then x.mul? (← Magnitude.ofNat? (pow10 exponent.toNat))
  else if -308 ≤ exponent then x.div? (← Magnitude.ofNat? (pow10 (-exponent).toNat))
  else
    let x ← x.div? (← Magnitude.ofNat? (pow10 308))
    x.div? (← Magnitude.ofNat? (pow10 (-exponent - 308).toNat))

/-- The parts of a number literal. -/
structure NumberParts where
  /-- A minus sign in front. -/
  negative : Bool
  /-- The digits before the point. -/
  whole : List Char
  /-- The digits after the point. -/
  fraction : List Char
  /-- The exponent, if there is one. -/
  exponent : Option Int

/-- The number that the parts denote, none beyond the largest. -/
def NumberParts.value? (p : NumberParts) : Option Binary64 :=
  let (significand, left) := absorb 0 p.whole
  let (significand, leftFraction) := absorb significand p.fraction
  let places := p.fraction.length - leftFraction.length
  let exponent := p.exponent.getD 0 + left.length - places
  (scaled? significand exponent).map (.finite p.negative)

/-- Digits after a point, if both are there. -/
def fractionPart : List Char → List Char × List Char
  | '.' :: cs =>
    match spanDigits cs with
    | ([], _) => ([], '.' :: cs)
    | (digits, rest) => (digits, rest)
  | cs => ([], cs)

/-- A signed run of digits after the mark of an exponent. -/
def signedDigits? (cs : List Char) : Option (Int × List Char) :=
  let (negative, cs) := Numeral.sign cs
  match spanDigits cs with
  | ([], _) => none
  | (digits, rest) =>
    some (if negative then -(natOfDigits digits : Int) else natOfDigits digits, rest)

/-- An exponent, if there is one. -/
def exponentPart : List Char → Option Int × List Char
  | c :: cs =>
    if c = 'e' ∨ c = 'E' then
      match signedDigits? cs with
      | some (power, rest) => (some power, rest)
      | none => (none, c :: cs)
    else (none, c :: cs)
  | [] => (none, [])

/-- The digits before the point: a lone zero, or digits that do not start with one. -/
def wholePart? : List Char → Option (List Char × List Char)
  | '0' :: rest => some (['0'], rest)
  | cs =>
    match spanDigits cs with
    | ([], _) => none
    | (digits, rest) => some (digits, rest)

/-- A number literal in front of the text. -/
def numberParts? (cs : List Char) : Option (NumberParts × List Char) := do
  let (negative, cs) := match cs with
    | '-' :: rest => (true, rest)
    | cs => (false, cs)
  let (whole, cs) ← wholePart? cs
  let (fraction, cs) := fractionPart cs
  let (exponent, cs) := exponentPart cs
  return (⟨negative, whole, fraction, exponent⟩, cs)

/-- The number in front of the text and what follows it; none also for a number out of range. -/
def readNumber? (cs : List Char) : Option (Binary64 × List Char) := do
  let (parts, rest) ← numberParts? cs
  return (← parts.value?, rest)

/-! ### Writing -/

/-- Digits with a point after the last one if there is none. -/
def withPoint (d : Decimal) : List Char :=
  if 0 ≤ d.scale then d.positional ++ ['.', '0'] else d.positional

/-- The text of a number that is not a safe integer. -/
def decimalChars (x : Magnitude) : List Char :=
  let d := x.shortest .even
  if -5 ≤ d.exponent ∧ d.exponent ≤ 15 then withPoint d else d.scientific

/-- The text of a number. JSON has none for infinities and NaN, they become null. -/
def numberChars (x : Binary64) : List Char :=
  match x with
  | .finite negative m =>
    if x.isExactInteger then
      (if negative && m != .zero then ['-'] else []) ++ Nat.toDigits 10 m.floor
    else (if negative then ['-'] else []) ++ decimalChars m
  | _ => "null".toList

end Overlay.Json
