import Overlay.Number.Binary64
import Overlay.Time.Instant

/-!
# Values

A `Value` is an untyped datum. Scalars stand for themselves; arrays, records and models are
shared, so their values are identifiers of cells in a `Heap`.
-/

namespace Overlay

/-- Identifies a record. -/
structure RecordId where
  /-- Its place among the records. -/
  index : Nat
  deriving DecidableEq

/-- Identifies an array. -/
structure ArrayId where
  /-- Its place among the arrays. -/
  index : Nat
  deriving DecidableEq

/-- Identifies a model, an instance of a model type. -/
structure ModelId where
  /-- Its place among the models. -/
  index : Nat
  deriving DecidableEq

/-- Identifies a model type. -/
structure TypeId where
  /-- Its place among the model types. -/
  index : Nat
  deriving DecidableEq

/-- The first model type, from which all others derive. -/
def TypeId.root : TypeId := ⟨0⟩

/-- An untyped datum. -/
inductive Value
  /-- Absent: a record never holds it. -/
  | undefined
  | null
  | bool (b : Bool)
  | number (x : Binary64)
  | string (s : String)
  | date (t : Instant)
  | array (a : ArrayId)
  | record (r : RecordId)
  | model (m : ModelId)
  deriving DecidableEq

namespace Value

instance : Inhabited Value := ⟨undefined⟩

/-- Absent or null. -/
def isNothing : Value → Bool
  | undefined => true
  | null => true
  | _ => false

/-- Absent. -/
def isUndefined : Value → Bool
  | undefined => true
  | _ => false

/-- A model. -/
def isModel : Value → Bool
  | model _ => true
  | _ => false

/-- An array. -/
def isArray : Value → Bool
  | array _ => true
  | _ => false

/-- A record. -/
def isRecord : Value → Bool
  | record _ => true
  | _ => false

/-- The truth value, if it is one. -/
def bool? : Value → Option Bool
  | bool b => some b
  | _ => none

/-- The number, if it is one. -/
def number? : Value → Option Binary64
  | number x => some x
  | _ => none

/-- The text, if it is a string. -/
def string? : Value → Option String
  | string s => some s
  | _ => none

/-- The instant, if it is a date. -/
def date? : Value → Option Instant
  | date t => some t
  | _ => none

/-- The array, if it is one. -/
def array? : Value → Option ArrayId
  | array a => some a
  | _ => none

/-- The record, if it is one. -/
def record? : Value → Option RecordId
  | record r => some r
  | _ => none

/-- The model, if it is one. -/
def model? : Value → Option ModelId
  | model m => some m
  | _ => none

@[simp] theorem isUndefined_iff {v : Value} : v.isUndefined = true ↔ v = undefined := by
  cases v <;> simp [isUndefined]

@[simp] theorem isNothing_iff {v : Value} : v.isNothing = true ↔ v = undefined ∨ v = null := by
  cases v <;> simp [isNothing]

theorem exists_of_isRecord {v : Value} (h : v.isRecord = true) : ∃ r, v = record r := by
  cases v <;> first | exact ⟨_, rfl⟩ | cases h

end Value

/-- Keys that start with `$` are never data fields. -/
def isReserved (key : String) : Bool := key.toList.head? == some '$'

end Overlay
