import Overlay.Engine.Basic
import Overlay.Number.Numeral
import Overlay.Time.Reader

/-!
# Coercion to built-in types

Every built-in type leaves absent and null values alone, and values of its own kind. In strict mode
all others are invalid; else those that have an obvious form in the type are converted, and only
the rest are invalid. The object type accepts everything, and the array type replaces the elements
in place.

* `Builtin.accepts` says which values are of the type's own kind;
* `Builtin.converted?` says what the others become.
-/

namespace Overlay

namespace Builtin

/-- The value is of the type's own kind. -/
def accepts : Builtin → Value → Bool
  | string, .string _ => true
  | number, .number _ => true
  | integer, .number x => x.isIntegral
  | boolean, .bool _ => true
  | date, .date _ => true
  | object, _ => true
  | array, .array _ => true
  | _, _ => false

/-- The finite number that a text denotes, blanks around it aside. -/
def finiteNumber? (s : String) : Option Binary64 := (Binary64.parse? (trim s)).filter (·.isFinite)

/-- Truth values are one or zero, dates count milliseconds, and texts may denote a number. -/
def toNumber? : Value → Option Binary64
  | .string s => finiteNumber? s
  | .bool b => some (if b then .one else .zero)
  | .date t => some (.ofInt t.millis)
  | _ => none

/-- Truth values, numbers and dates have a text. -/
def toText? : Value → Option String
  | .bool b => some (if b then "true" else "false")
  | .number x => some x.text
  | .date t => some t.text
  | _ => none

/-- Numbers are true unless zero or NaN; of texts only `true` and `1` are. -/
def toBool? : Value → Option Bool
  | .number x => some (!x.isZero && x != .nan)
  | .string s => some (s == "true" || s == "1")
  | _ => none

/-- Finite numbers count milliseconds, as far as 64 bits go, and texts may denote an instant. -/
def toDate? : Value → Option Instant
  | .string s => Instant.parse? s
  | .number x => x.truncate?.bind fun n => Instant.ofMillis? (Instant.clamp64 n)
  | _ => none

/-- What a value of another kind becomes. -/
def converted? : Builtin → Value → Option Value
  | string, v => (toText? v).map .string
  | number, v => (toNumber? v).map .number
  | integer, v => (toNumber? v).map .number
  | boolean, v => (toBool? v).map .bool
  | date, v => (toDate? v).map .date
  | _, _ => none

/-- Conversion gives a value of the type's own kind, except that integers are checked afterwards. -/
theorem converted?_accepts {b : Builtin} {v w : Value} (hb : b ≠ .integer)
    (h : b.converted? v = some w) : w.isModel = false ∧ b.accepts w = true := by
  cases b <;> simp only [Builtin.converted?, Option.map_eq_some_iff] at h
  case integer => exact absurd rfl hb
  case object => cases h
  case array => cases h
  all_goals
    obtain ⟨x, -, rfl⟩ := h
    exact ⟨rfl, rfl⟩

end Builtin

namespace Engine

/-- Coercion to a type whose values have no parts. -/
def coerceScalar (b : Builtin) (v : Value) : Engine Value := do
  if v.isNothing || b.accepts v then return v
  else if (← options).strict then invalid v
  else
    match b.converted? v with
    | some w => return w
    | none => invalid v

/-- Coercion to a number without a fraction: to a number first, but it is the value before that is
called invalid. -/
def coerceInteger (v : Value) : Engine Value := do
  let w ← coerceScalar .number v
  match w with
  | .number x => if x.isIntegral then return w else invalid v
  | _ => return w

/-- Replaces elements from an index on, one after the other, by what an action makes of them. -/
def replaceItems (action : Value → Engine Value) (a : ArrayId) : Nat → Nat → Engine Unit
  | _, 0 => pure ()
  | i, count + 1 => do
    let v ← action ((← heap).item a i)
    changeHeap (·.setItem a i v)
    replaceItems action a (i + 1) count

/-- Coercion to an array. Where the property at hand declares elements, each is replaced by its
stored form. -/
def coerceArray (stored : Property → Value → Engine Value) (v : Value) : Engine Value := do
  match v with
  | .undefined | .null => return v
  | .array a =>
    match (← options).property.bind (·.elementProperty?) with
    | none => return v
    | some p =>
      let count := ((← heap).items a).length
      holding [v] (replaceItems (stored p) a 0 count)
      return v
  | _ => invalid v

/-- Coercion to a built-in type, given the stored form of the elements of a declared array. -/
def coerceBuiltin (stored : Property → Value → Engine Value) : Builtin → Value → Engine Value
  | .integer => coerceInteger
  | .object => fun v => return v
  | .array => coerceArray stored
  | b => coerceScalar b

end Engine

end Overlay
