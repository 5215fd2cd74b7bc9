import Overlay.Engine.Basic
import Overlay.Heap.Equality
import Overlay.Text.UpperCase

/-!
# Constants of enumerations

`Constants` finds the constant that a name, a raw value or an instance denotes. Its rules take the
place of a type's own coercion, wrapping and initialisation: absent and null values are left
alone, and what denotes no constant is invalid.
-/

namespace Overlay

namespace Constants

variable (cs : Constants)

/-- The constant of this name or, failing that, the first whose name is this in upper case. -/
def named? (name : String) : Option Constant :=
  let name := if cs.upperCased then upperCase name else name
  (cs.all.find? (·.name == name)).or
    (cs.all.find? fun c => upperCase c.name == name)

/-- The first constant whose raw value equals this one. -/
def valued? (h : Heap) (v : Value) : Option Constant :=
  cs.all.find? fun c => h.equal (h.data c.model) v

/-- The constant that a model is or, failing that, whose raw value it has. -/
def ofModel? (h : Heap) (m : ModelId) : Option Constant :=
  (cs.all.find? (·.model == m)).or (cs.valued? h (h.data m))

/-- The constant that a value denotes; models must be instances of the type. -/
def denoted? (s : Schema) (h : Heap) (t : TypeId) : Value → Option Constant
  | .model m => if s.derivesFrom (h.type m) t then cs.ofModel? h m else none
  | .string name => (cs.named? name).or (cs.valued? h (.string name))
  | v => cs.valued? h v

end Constants

namespace Engine

/-- The constant that a value denotes, in a form of its own; what denotes none is invalid. -/
def denote (form : Heap → Constant → Value) (cs : Constants) (t : TypeId) (v : Value) :
    Engine Value := do
  if v.isNothing then return v
  else
    let h ← heap
    match cs.denoted? (← schema) h t v with
    | some c => return form h c
    | none => invalid v

/-- The raw value of the constant that a value denotes. -/
def coerceConstant : Constants → TypeId → Value → Engine Value := denote fun h c => h.data c.model

/-- The constant that a value denotes. -/
def wrapConstant : Constants → TypeId → Value → Engine Value := denote fun _ c => .model c.model

/-- A new instance must have the raw value of a constant. -/
def checkConstant (cs : Constants) (m : ModelId) : Engine Unit := do
  let h ← heap
  if (cs.ofModel? h m).isNone then
    let _ ← invalid (h.data m)

/-- The name of the constant that a model is. -/
def constantName (cs : Constants) (m : ModelId) : Engine Value := do
  return ((cs.ofModel? (← heap) m).map fun c => .string c.name).getD .undefined

/-- Whether a model is the constant of this name. -/
def isConstant (cs : Constants) (name : String) (m : ModelId) : Engine Value := do
  return .bool ((cs.ofModel? (← heap) m).any (·.name == name))

end Engine

end Overlay
