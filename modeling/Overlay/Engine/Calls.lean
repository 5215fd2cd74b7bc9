import Overlay.Engine.Run

/-!
# What can be done with types and models

The operations that a program calls: making and wrapping models, reading and writing their
properties by name, calling their methods, and getting the raw form back.
-/

namespace Overlay.Engine

/-- A new model around data. -/
def create (t : TypeId) (data : Option Value) : Engine ModelId := (Operation.create t data).run

/-- A new model around an empty record, in throwing mode. -/
def createEmpty (t : TypeId) : Engine ModelId := apart (create t none)

/-- The wrapped form of a value. -/
def wrap (t : DataType) (v : Value) : Engine Value := (Operation.wrap t v).run

/-- A value normalised for a type. -/
def coerce (t : DataType) (v : Value) : Engine Value := (Operation.coerce t v).run

/-- The model that wraps a value, in throwing mode; without one the value is invalid. -/
def modelOf (t : TypeId) (v : Value) : Engine ModelId :=
  apart do
    match ← wrap (.model t) v with
    | .model m => return m
    | w => raise (.invalidValue none ((← heap).text w))

/-- The value of a property of a model. -/
def getProperty (m : ModelId) (p : Property) : Engine Value := (Operation.get m p).run

/-- Writes a property of a model. -/
def setProperty (m : ModelId) (p : Property) (v : Value) : Engine Unit := (Operation.set m p v).run

/-- The stored form of a value for a property. -/
def storedForm (p : Property) (v : Value) : Engine Value := do
  let budget := (← schema).budget p.weight
  stored (perform budget) p v

/-- The value of the property of this name or storage key. -/
def get (m : ModelId) (name : String) : Engine Value := do getProperty m (← property m name)

/-- Writes the property of this name or storage key. -/
def set (m : ModelId) (name : String) (v : Value) : Engine Unit := do
  setProperty m (← property m name) v

/-- Calls an accessor or a method. -/
def call (m : ModelId) (method : String) (arguments : List Value) : Engine Value :=
  (Operation.call m method arguments).run

/-- The raw form of a model: what the nearest hook for it gives, and else its data. A hook that
fails gives the undefined value. -/
def unwrapModel (m : ModelId) : Engine Value := do
  let t := (← heap).type m
  match (← schema).unwrapping? t with
  | none => return (← heap).data m
  | some hook =>
    let budget := (← schema).budget 0
    orElse (holding [.model m] (runHook (perform budget) (.unwrap m) hook (.model m)))
      (pure .undefined)

/-- The raw form of a value under a type: model types let a model say what it is. -/
def unwrap (t : DataType) (v : Value) : Engine Value := do
  match t, v with
  | .model _, .model m => unwrapModel m
  | _, v => return (← heap).unwrap v

end Overlay.Engine
