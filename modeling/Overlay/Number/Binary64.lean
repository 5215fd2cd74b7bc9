import Overlay.Number.Power

/-!
# Binary floating-point numbers

The numbers of this library are the values of the IEEE 754 binary64 format, with one NaN.
Every finite magnitude is a whole number of *units*, a unit being `2 ^ (-1074)`, so each operation
here computes exactly on natural numbers and rounds once.

* `Magnitude` is a finite magnitude in canonical form, so equal magnitudes are equal terms;
* `Magnitude.round?` is the nearest magnitude to a ratio of units, ties to even;
* `Binary64.ofInt`, `Binary64.add`, `Magnitude.mul?` and `Magnitude.div?` are exact results,
  rounded;
* `Binary64.equal` is numeric equality: a NaN differs from itself and the two zeros agree.
-/

namespace Overlay

/-! ### Finite magnitudes -/

/-- A finite magnitude: `mantissa * 2 ^ exponent` units of `2 ^ (-1074)`. -/
structure Magnitude where
  /-- The significant bits. -/
  mantissa : Nat
  /-- The binary exponent, counted from the smallest one. -/
  exponent : Nat
  /-- The mantissa has 53 bits, or fewer at the smallest exponent only. -/
  canonical : mantissa < pow2 53 ∧ exponent ≤ 2045 ∧ (exponent = 0 ∨ pow2 52 ≤ mantissa)
  deriving DecidableEq

/-- The quotient `a / b` rounded to the nearest natural number, ties to even. -/
def divNearest (a b : Nat) : Nat :=
  let q := a / b
  match compare (2 * (a % b)) b with
  | .lt => q
  | .gt => q + 1
  | .eq => if q % 2 = 0 then q else q + 1

namespace Magnitude

/-- How many units the number one has. -/
def unitsPerOne : Nat := pow2 1074

/-- The magnitude as a number of units. -/
def units (x : Magnitude) : Nat := x.mantissa * pow2 x.exponent

/-- The magnitude zero. -/
def zero : Magnitude := ⟨0, 0, by decide⟩

/-- The magnitude one. -/
def one : Magnitude := ⟨pow2 52, 1022, by decide⟩

/-- The magnitude with this mantissa and exponent, if they are canonical. -/
def canonical? (mantissa exponent : Nat) : Option Magnitude :=
  if h : mantissa < pow2 53 ∧ exponent ≤ 2045 ∧ (exponent = 0 ∨ pow2 52 ≤ mantissa) then
    some ⟨mantissa, exponent, h⟩
  else none

/-- The magnitude nearest to `num / den` units, ties to the even mantissa; none if that is beyond
the largest one. -/
def round? (num den : Nat) : Option Magnitude :=
  let whole := num / den
  let exponent := if whole < pow2 53 then 0 else Nat.log2 whole - 52
  let mantissa := divNearest num (den * pow2 exponent)
  if mantissa = pow2 53 then canonical? (pow2 52) (exponent + 1) else canonical? mantissa exponent

/-- The rounded product. -/
def mul? (x y : Magnitude) : Option Magnitude := round? (x.units * y.units) unitsPerOne

/-- The rounded quotient by a nonzero magnitude. -/
def div? (x y : Magnitude) : Option Magnitude := round? (x.units * unitsPerOne) y.units

/-- The rounded natural number. -/
def ofNat? (n : Nat) : Option Magnitude := round? (n * unitsPerOne) 1

/-- No fractional part. -/
def isIntegral (x : Magnitude) : Bool := x.units % unitsPerOne == 0

/-- The integer part. -/
def floor (x : Magnitude) : Nat := x.units / unitsPerOne

@[simp] theorem units_zero : zero.units = 0 := by simp [units, zero]

theorem canonical?_eq_some_iff {m e : Nat} {x : Magnitude} :
    canonical? m e = some x ↔ x.mantissa = m ∧ x.exponent = e := by
  obtain ⟨m', e', h⟩ := x
  unfold canonical?
  split
  · simp [eq_comm]
  · rename_i hn
    simp only [reduceCtorEq, false_iff, not_and]
    rintro rfl rfl
    exact hn h

end Magnitude

/-! ### Numbers -/

/-- A number of the binary64 format. -/
inductive Binary64
  /-- Not a number. -/
  | nan
  /-- Positive or negative infinity. -/
  | infinity (negative : Bool)
  /-- A finite number; zero has a sign too. -/
  | finite (negative : Bool) (magnitude : Magnitude)
  deriving DecidableEq

namespace Binary64

/-- The positive zero. -/
def zero : Binary64 := .finite false .zero

/-- The number one. -/
def one : Binary64 := .finite false .one

instance : Inhabited Binary64 := ⟨zero⟩

/-- The number of this sign and magnitude, where a missing magnitude is beyond the largest. -/
def ofMagnitude? (negative : Bool) : Option Magnitude → Binary64
  | some x => .finite negative x
  | none => .infinity negative

/-- The number nearest to a signed count of units; an exact zero is positive. -/
def ofUnits (units : Int) : Binary64 :=
  ofMagnitude? (decide (units < 0)) (Magnitude.round? units.natAbs 1)

/-- The number nearest to an integer, ties to even. -/
def ofInt (n : Int) : Binary64 := ofMagnitude? (decide (n < 0)) (Magnitude.ofNat? n.natAbs)

/-- Neither infinite nor NaN. -/
def isFinite : Binary64 → Bool
  | .finite .. => true
  | _ => false

/-- Finite without a fractional part. -/
def isIntegral : Binary64 → Bool
  | .finite _ x => x.isIntegral
  | _ => false

/-- The largest integer below which every integer is a number of the format. -/
def exactLimit : Nat := pow2 53 - 1

/-- Integral, and so small that neighbouring integers are numbers too. -/
def isExactInteger : Binary64 → Bool
  | .finite _ x => x.isIntegral && decide (x.floor ≤ exactLimit)
  | _ => false

/-- The integer part, toward zero; none if there is none. -/
def truncate? : Binary64 → Option Int
  | .finite false x => some x.floor
  | .finite true x => some (-x.floor)
  | _ => none

/-- The other sign. -/
def negate : Binary64 → Binary64
  | .nan => .nan
  | .infinity negative => .infinity (!negative)
  | .finite negative x => .finite (!negative) x

/-- The signed count of units of a finite number. -/
def signedUnits (negative : Bool) (x : Magnitude) : Int :=
  if negative then -(x.units : Int) else x.units

/-- The rounded sum. A sum that is exactly zero is positive unless both terms are negative. -/
def add : Binary64 → Binary64 → Binary64
  | .nan, _ => .nan
  | _, .nan => .nan
  | .infinity s, .infinity t => if s = t then .infinity s else .nan
  | .infinity s, .finite .. => .infinity s
  | .finite .., .infinity t => .infinity t
  | .finite s x, .finite t y =>
    let sum := signedUnits s x + signedUnits t y
    if sum = 0 then .finite (s && t) .zero else ofUnits sum

/-- Numeric equality. -/
def equal : Binary64 → Binary64 → Bool
  | .infinity s, .infinity t => s == t
  | .finite s x, .finite t y => x == y && (s == t || x == .zero)
  | _, _ => false

/-- Zero of either sign. -/
def isZero : Binary64 → Bool
  | .finite _ x => x == .zero
  | _ => false

/-- The 64 bits of the interchange format, read as a natural number; a NaN is the quiet one. -/
def toBits : Binary64 → Nat
  | .nan => 0x7ff8000000000000
  | .infinity s => sign s + 0x7ff0000000000000
  | .finite s x => sign s + x.exponent * pow2 52 + x.mantissa
where
  /-- The weight of the sign bit. -/
  sign (negative : Bool) : Nat := if negative then pow2 63 else 0

theorem equal_comm (a b : Binary64) : equal a b = equal b a := by
  cases a with
  | nan => cases b <;> rfl
  | infinity s => cases b <;> simp [equal, Bool.beq_comm]
  | finite s x =>
    cases b with
    | finite t y => rw [Bool.eq_iff_iff]; simp only [equal]; grind
    | nan => rfl
    | infinity t => rfl

theorem equal_trans {a b c : Binary64} (hab : equal a b) (hbc : equal b c) : equal a c := by
  cases a <;> cases b <;> cases c <;> simp_all [equal]
  grind

@[simp] theorem equal_self_iff {a : Binary64} : equal a a = true ↔ a ≠ .nan := by
  cases a <;> simp [equal]

end Binary64

end Overlay
