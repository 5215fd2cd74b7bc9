import Overlay.Value

/-!
# Data types

A `DataType` is built in, a model type, or an adapter type, which brings its own way of wrapping.
The last two are kept in a schema, and a data type names their place there.
-/

namespace Overlay

/-- The leaf types that need no declaration. -/
inductive Builtin
  | string
  | number
  | integer
  | boolean
  | date
  | object
  | array
  deriving DecidableEq, Repr

namespace Builtin

/-- The name of the type. -/
def name : Builtin → String
  | string => "string"
  | number => "number"
  | integer => "integer"
  | boolean => "boolean"
  | date => "date"
  | object => "object"
  | array => "array"

/-- Every built-in type. -/
def all : List Builtin := [string, number, integer, boolean, date, object, array]

/-- The built-in type of this name. -/
def ofName? (name : String) : Option Builtin := all.find? (·.name == name)

theorem ofName?_name (b : Builtin) : ofName? b.name = some b := by cases b <;> decide

end Builtin

/-- Identifies an adapter type. -/
structure AdapterId where
  /-- Its place among the adapter types. -/
  index : Nat
  deriving DecidableEq

/-- A type that a value can be declared with. -/
inductive DataType
  | builtin (b : Builtin)
  | model (t : TypeId)
  | adapter (a : AdapterId)
  deriving DecidableEq

namespace DataType

/-- The model type, if it is one. -/
def model? : DataType → Option TypeId
  | model t => some t
  | _ => none

/-- A leaf type without declared structure. -/
def isBuiltin : DataType → Bool
  | builtin _ => true
  | _ => false

end DataType

end Overlay
