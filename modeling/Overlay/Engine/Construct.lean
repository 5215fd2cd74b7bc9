import Overlay.Engine.Constants
import Overlay.Engine.Hooks

/-!
# Constructing and wrapping

`Engine.construct` makes a model around data: under a type with properties, each key of the record
goes through its property, the record is linked to the model, and then the initialisation of every
type of the ancestry runs. `Engine.wrapStandard` turns any value into an instance of a type, and
makes a new one only if there is none yet.
-/

namespace Overlay.Engine

/-- What a rule makes of a value on behalf of a type, given what it means for an enumeration. -/
def runRule (perform : Perform) (constants : Constants → TypeId → Value → Engine Value)
    (t : TypeId) (v : Value) : Rule → Engine Value
  | .hook actions => runHook perform (.ofType t) actions v
  | .constants cs => constants cs t v

/-- Coercion by a model type. -/
def coerceUnder (perform : Perform) (t : TypeId) (v : Value) : Engine Value := do
  match ((← schema).type t).coerce with
  | some rule => runRule perform coerceConstant t v rule
  | none => return v

/-- The record that a new model under a type with properties wraps. Any other value is invalid; if
that could be recorded, a fresh record takes its place. -/
def recordFor (data : Option Value) : Engine RecordId := do
  match data.getD .undefined with
  | .record r => return r
  | .undefined | .null => allocate (·.addRecord .empty)
  | v =>
    let _ ← invalid v
    allocate (·.addRecord .empty)

/-- Puts one entry of the record through the property that its key names. -/
def admitEntry (perform : Perform) (m : ModelId) (type : ModelType) (key : String) (v : Value) :
    Engine Unit := do
  if isReserved key then return ()
  else
    match type.property? key with
    | some p => perform (.set m p v)
    | none =>
      if type.allowsAdditional then return ()
      else
        let _ ← signal (.unrecognizedKey key)

/-- Puts entries through their properties in order; those to come are still in use. -/
def admitEntries (perform : Perform) (m : ModelId) (type : ModelType) :
    List (String × Value) → Engine Unit
  | [] => return ()
  | (key, v) :: rest => do
    holding (.model m :: rest.map Prod.snd) (admitEntry perform m type key v)
    admitEntries perform m type rest

/-- Runs the initialisation of a new model, the root's part first. -/
def runInit (perform : Perform) (m : ModelId) : List Rule → Engine Unit
  | [] => return ()
  | rule :: rest => do
    match rule with
    | .hook actions =>
      let _ ← holding [.model m] (runHook perform (.init m) actions (.model m))
    | .constants cs => checkConstant cs m
    runInit perform m rest

/-- A new model around data. Without properties the data are held as they are. -/
def construct (perform : Perform) (t : TypeId) (data : Option Value) : Engine ModelId := do
  let type := (← schema).type t
  if !type.allowsInstances then raise (.noInstances type.name)
  else
    let m ← if type.isStructured then do
        let r ← recordFor data
        let m ← allocate (·.addModel t (.record r))
        admitEntries perform m type ((← heap).fields r).entries
        changeHeap (·.setWrapper r (some m))
        pure m
      else allocate (·.addModel t (data.getD .undefined))
    runInit perform m ((← schema).initRules t)
    return m

/-- The data of a model that is no instance of the type at hand; its record lets go of it. -/
def release (m : ModelId) : Engine Value := do
  let data := (← heap).data m
  match data with
  | .record r => changeHeap (·.setWrapper r none)
  | _ => pure ()
  return data

/-- Wraps raw data: by the model attached to the record, or by a new one. -/
def wrapData (perform : Perform) (t : TypeId) (v : Value) : Engine Value := do
  let type := (← schema).type t
  if type.wrap == .disabled then return v
  else if v.isArray then raise .wrappedArray
  else if type.isStructured && !v.isRecord then invalid v
  else
    let existing ← match v with
      | .record r => holding [v] (wrapper? r)
      | _ => pure none
    match existing with
    | some m => return .model m
    | none => return .model (← perform (.create t (some v)))

/-- The model, if the value is an instance of the type. -/
def instance? (t : TypeId) (v : Value) : Engine (Option ModelId) := do
  match v with
  | .model m => if ← isInstance m t then return some m else return none
  | _ => return none

/-- Wraps a value: instances of the type are wrapped already, other models are taken apart. -/
def wrapStandard (perform : Perform) (t : TypeId) (v : Value) : Engine Value := do
  match ← instance? t v with
  | some m => return .model m
  | none =>
    let v ← coerceUnder perform t v
    if v.isNothing then return v
    else
      match ← instance? t v with
      | some m => return .model m
      | none =>
        let v ← match v with
          | .model m => release m
          | _ => pure v
        wrapData perform t v

/-- Wrapping by a model type. -/
def wrapUnder (perform : Perform) (t : TypeId) (v : Value) : Engine Value := do
  match ((← schema).type t).wrap with
  | .custom rule => runRule perform wrapConstant t v rule
  | _ => wrapStandard perform t v

end Overlay.Engine
