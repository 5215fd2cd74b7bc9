import Overlay.Engine.Hooks

/-!
# Reading and writing properties

Every access to a field of a model goes through `Engine.readProperty` or `Engine.writeProperty`.
Writing takes two steps. The value is made one of the declared type (`adapt`); then, if that type
wraps, wrapping it is tried so that nested records go through their own types, and its raw form is
kept (`settle`). So a record never holds the models that reading it gives.
-/

namespace Overlay.Engine

/-- Makes a value one of the declared type: an instance of it gives its data, anything else is
coerced. -/
def adapt (perform : Perform) (p : Property) (v : Value) : Engine Value := do
  match v with
  | .model m =>
    let h ← heap
    let s ← schema
    if s.fits (.model (h.type m)) p.type then return h.data m
    else perform (.coerce p.type v)
  | _ => perform (.coerce p.type v)

/-- Tries to wrap a value by the declared type and gives the raw form; where wrapping gives nothing,
neither does this. -/
def settle (perform : Perform) (p : Property) (v : Value) : Engine Value := do
  if v.isNothing || !(← schema).wraps p.type then return v
  else
    let wrapped ← holding [v] (perform (.wrap p.type v))
    if wrapped.isUndefined then return .undefined else return (← heap).unwrap v

/-- The stored form of a value, such as that of an element, which has no field of its own. -/
def stored (perform : Perform) (p : Property) (v : Value) : Engine Value :=
  concerning p do
    let v ← adapt perform p v
    settle perform p v

/-- Writes a property: what its type makes of the value goes to its setter or into the model's
record. -/
def writeProperty (perform : Perform) (m : ModelId) (p : Property) (v : Value) : Engine Unit :=
  holding [.model m] do
    let v ← concerning p (adapt perform p v)
    match p.setter with
    | some hook =>
      let _ ← runHook perform (.accessor m p) hook v
    | none =>
      let v ← concerning p (settle perform p v)
      match (← heap).record? m with
      | some r => changeHeap (·.insert r p.storageKey v)
      | none => return ()

/-- A fresh model of a type around a value; under a type with properties it is attached to the
record. -/
def freshModel (t : TypeId) (v : Value) : Engine Value := do
  let m ← allocate (·.addModel t v)
  match v with
  | .record r =>
    if ((← schema).type t).isStructured then changeHeap (·.setWrapper r (some m))
    return .model m
  | _ => return .model m

/-- Wraps a value read back from a record. It was checked when it was stored, so a record only
gets a model attached, without checks and without hooks. -/
def represent (perform : Perform) (t : TypeId) (v : Value) : Engine Value := do
  let type := (← schema).type t
  if type.wrap != .standard || !type.allowsInstances || v.isNothing || v.isArray || v.isModel then
    apart (perform (.wrap (.model t) v))
  else
    match v with
    | .record r =>
      match ← holding [v] (wrapper? r) with
      | some m => return .model m
      | none => freshModel t v
    | _ => if type.isStructured then apart (perform (.wrap (.model t) v)) else freshModel t v

/-- Reads a property: by its getter, or from the model's record in the form its type gives. -/
def readProperty (perform : Perform) (m : ModelId) (p : Property) : Engine Value :=
  holding [.model m] do
    match p.getter with
    | some hook => runHook perform (.accessor m p) hook .undefined
    | none =>
      let h ← heap
      let s ← schema
      let v := (h.record? m).elim .undefined fun r => (h.fields r).get p.storageKey
      if v.isNothing || !s.wraps p.type then return v
      else if s.readsRaw p.type then return h.unwrap v
      else
        match p.type with
        | .model t => represent perform t v
        | t => apart (perform (.wrap t v))

end Overlay.Engine
