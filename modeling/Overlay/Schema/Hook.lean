import Overlay.Error
import Overlay.Schema.DataType

/-!
# Hooks

A hook is a small program that a schema runs at a fixed moment: after construction, in place of a
default, or when an accessor or method is called. It is a list of actions that pass an accumulator
along; what starts in the accumulator and what else the actions can see depends on the moment.
-/

namespace Overlay

/-- One step of a hook. -/
inductive Action
  /-- Forgets the accumulator. -/
  | forget
  /-- Loads a constant, the same shared value each time. -/
  | constant (v : Value)
  /-- Puts a string into upper case. -/
  | upperCase
  /-- Turns a value that is there into its text. -/
  | toText
  /-- Reads a string as a number; another string is an invalid value. -/
  | parseNumber
  /-- Puts a plain value under a key of a fresh record. -/
  | intoRecord (key : String)
  /-- Signals that the accumulator is an invalid value. -/
  | reject
  /-- Signals an error. -/
  | signal (e : Error)
  /-- Logs the accumulator's text after a tag. -/
  | log (tag : String)
  /-- Logs the options. -/
  | logOptions
  /-- Loads a property of the model. -/
  | get (property : String)
  /-- Writes the accumulator to a property of the model. -/
  | set (property : String)
  /-- Writes the accumulator to the storage key of the property at hand. -/
  | store
  /-- Reads the storage key of the property at hand. -/
  | load
  /-- Makes an instance of the type at hand around the accumulator. -/
  | create
  /-- Coerces the accumulator to a type. -/
  | coerce (type : DataType)
  /-- Wraps the accumulator by a type. -/
  | wrap (type : DataType)
  /-- Takes the data out of a model. -/
  | unwrap
  /-- Loads the name of the model's type, or of the type at hand. -/
  | typeName
  /-- Loads a fresh array of the arguments. -/
  | arguments
  /-- Loads one argument. -/
  | argument (i : Nat)
  /-- Calls a method of the model with the same arguments. -/
  | call (method : String)
  /-- Loads a snapshot of the model. -/
  | snapshot
  /-- Signals an invalid value unless a property of the model is set. -/
  | require (property : String)
  /-- Loads the name of the property at hand. -/
  | propertyName
  /-- Adds one to the number under a key of the model's record. -/
  | increment (key : String)
  deriving DecidableEq

/-- A program of actions. -/
abbrev Hook := List Action

/-- The values that an action keeps. -/
def Action.heldValues : Action → List Value
  | .constant v => [v]
  | _ => []

/-- The values that a hook keeps. -/
def Hook.heldValues (actions : Hook) : List Value := actions.flatMap Action.heldValues

/-! ### Constants of an enumeration -/

/-- A named constant: one of the fixed instances of an enumeration. -/
structure Constant where
  /-- The declared name. -/
  name : String
  /-- The instance. -/
  model : ModelId
  deriving DecidableEq

/-- The constants of an enumeration. -/
structure Constants where
  /-- The constants in the order of their declaration. -/
  all : List Constant
  /-- Names are put into upper case before they are looked up. -/
  upperCased : Bool
  deriving DecidableEq

/-- The constants as values. -/
def Constants.heldValues (cs : Constants) : List Value :=
  cs.all.map fun c => .model c.model

/-- What runs at one of the moments of a type: a program, or the rule of an enumeration. -/
inductive Rule
  | hook (actions : Hook)
  | constants (cs : Constants)
  deriving DecidableEq

/-- The values that a rule keeps. -/
def Rule.heldValues : Rule → List Value
  | .hook actions => Hook.heldValues actions
  | .constants cs => cs.heldValues

end Overlay
