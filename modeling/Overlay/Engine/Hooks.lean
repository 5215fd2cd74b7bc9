import Overlay.Engine.Basic
import Overlay.Number.Numeral
import Overlay.Schema.Inspect
import Overlay.Text.Blank

/-!
# Running hooks

`Engine.runHook` passes an accumulator through the actions of a hook. What the actions can see is
the `Scene`; an action whose part of the scene is missing leaves the accumulator as it is. Hooks
that are not handed options run apart from those at hand.
-/

namespace Overlay

/-- What the actions of a hook can see. -/
structure Scene where
  /-- The model it runs on. -/
  model : Option ModelId
  /-- The property it stands in for. -/
  property : Option Property
  /-- The type it coerces to or wraps by. -/
  type : Option TypeId
  /-- The arguments of a call. -/
  arguments : Option (List Value)
  /-- It was handed the options of the operation. -/
  hasOptions : Bool

namespace Scene

/-- After construction. -/
def init (m : ModelId) : Scene := ⟨some m, none, none, none, true⟩

/-- In place of coercing to a model type or wrapping by it. -/
def ofType (t : TypeId) : Scene := ⟨none, none, some t, none, true⟩

/-- In place of wrapping by an adapter type. -/
def adapter : Scene := ⟨none, none, none, none, true⟩

/-- In place of unwrapping. -/
def unwrap (m : ModelId) : Scene := ⟨some m, none, none, none, false⟩

/-- A method. -/
def method (m : ModelId) (arguments : List Value) : Scene :=
  ⟨some m, none, none, some arguments, false⟩

/-- In place of reading or writing a property. -/
def accessor (m : ModelId) (p : Property) : Scene := ⟨some m, some p, none, none, false⟩

/-- The values that the scene keeps in use. -/
def heldValues (scene : Scene) : List Value :=
  (scene.model.map Value.model).toList ++ scene.arguments.getD []

end Scene

namespace Engine

/-- The record of a model. -/
def recordOf? (m : Option ModelId) : Engine (Option RecordId) := do
  return m.bind (← heap).record?

/-- One more than a number; anything else counts as zero. -/
def incremented (v : Value) : Value := .number ((v.number?.getD .zero).add .one)

/-- What one action makes of the accumulator. -/
def runAction (perform : Perform) (scene : Scene) (action : Action) (acc : Value) :
    Engine Value := do
  match action with
  | .forget => return .undefined
  | .constant v => return v
  | .upperCase => return acc.string?.elim acc fun s => .string (upperCase s)
  | .toText => if acc.isNothing then return acc else return .string ((← heap).text acc)
  | .parseNumber =>
    match acc with
    | .string s =>
      match Binary64.parse? (trim s) with
      | some x => return .number x
      | none => invalid acc
    | _ => return acc
  | .intoRecord key =>
    if acc.isNothing || acc.isRecord || acc.isModel then return acc
    else return .record (← allocate (·.recordOf [(key, acc)]))
  | .reject =>
    if scene.hasOptions then invalid acc
    else raise (.invalidValue (scene.property.map (·.name)) ((← heap).text acc))
  | .signal e => signal e
  | .log tag =>
    log (tag ++ ":" ++ (← heap).text acc)
    return acc
  | .logOptions =>
    log (← options).describe
    return acc
  | .get name =>
    match scene.model with
    | some m => holding [acc] do perform (.get m (← property m name))
    | none => return acc
  | .set name =>
    match scene.model with
    | some m =>
      holding [acc] do perform (.set m (← property m name) acc)
      return acc
    | none => return acc
  | .store =>
    match ← recordOf? scene.model, scene.property with
    | some r, some p =>
      changeHeap (·.insert r p.storageKey acc)
      return acc
    | _, _ => return acc
  | .load =>
    match ← recordOf? scene.model, scene.property with
    | some r, some p => return ((← heap).fields r).get p.storageKey
    | _, _ => return acc
  | .create =>
    match scene.type with
    | some t => return .model (← perform (.create t (some acc)))
    | none => return acc
  | .coerce t => perform (.coerce t acc)
  | .wrap t => perform (.wrap t acc)
  | .unwrap => return (← heap).unwrap acc
  | .typeName =>
    match scene.model, scene.type with
    | some m, _ => return .string (← typeOf m).name
    | none, some t => return .string ((← schema).type t).name
    | none, none => return acc
  | .arguments =>
    match scene.arguments with
    | some vs => return .array (← allocate (·.addArray vs))
    | none => return acc
  | .argument i => return scene.arguments.elim acc fun vs => vs.getD i .undefined
  | .call name =>
    match scene.model with
    | some m => holding [acc] (perform (.call m name (scene.arguments.getD [])))
    | none => return acc
  | .snapshot =>
    match scene.model with
    | some m => holding [acc] (snapshot m)
    | none => return acc
  | .require name =>
    match scene.model with
    | some m =>
      if (← holding [acc] do perform (.get m (← property m name))).isUndefined then
        let _ ← invalid .undefined
      return acc
    | none => return acc
  | .propertyName =>
    let active ← if scene.property.isSome then pure scene.property else pure (← options).property
    return active.elim .undefined fun p => .string p.name
  | .increment key =>
    match ← recordOf? scene.model with
    | some r =>
      changeHeap (·.insert r key (incremented (((← heap).fields r).get key)))
      return acc
    | none => return acc

/-- What a list of actions makes of the accumulator, one after the other. -/
def runActions (perform : Perform) (scene : Scene) : Hook → Value → Engine Value
  | [], acc => return acc
  | action :: rest, acc => do
    let acc ← holding scene.heldValues (runAction perform scene action acc)
    runActions perform scene rest acc

/-- What a hook makes of a value. -/
def runHook (perform : Perform) (scene : Scene) (hook : Hook) (v : Value) : Engine Value :=
  if scene.hasOptions then runActions perform scene hook v
  else apart (runActions perform scene hook v)

end Engine

end Overlay
