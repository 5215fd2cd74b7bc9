import Overlay.Heap.Reach
import Overlay.Options
import Overlay.Schema.Basic

/-!
# Snapshots

A snapshot of a value holds its persisted data only (`Snapshot.take`). Arrays, and the records that
a type knows, are copied into fresh cells; a record that no type knows stands for itself.

A record is known by the model that is attached to it and still held. If there is none, the record
in a field is known by the declared type of the field. Keys that no type declares are left out, and
noted if the caller asked for a list.
-/

namespace Overlay.Snapshot

/-- What taking a snapshot changes: the heap, by fresh cells, and the list of diagnostics. -/
structure State where
  /-- The heap. -/
  heap : Heap
  /-- The diagnostics so far, when they are asked for. -/
  diagnostics : Option (List Diagnostic)

/-- What taking a snapshot sees: the types, and the values that are held. -/
structure Context where
  /-- The types. -/
  schema : Schema
  /-- The values that are held, which decide what models can be found. -/
  roots : List Value

/-- A step of taking a snapshot. -/
abbrev Action (α : Type) : Type := ReaderT Context (StateM State) α

/-- The model attached to a record and held. -/
def wrapper? (r : RecordId) : Action (Option ModelId) := do
  let heap := (← get).heap
  match heap.attached? r with
  | none => return none
  | some _ => return heap.wrapper? (← read).roots r

/-- Notes a key that no type declares. -/
def noteKey (key : String) : Action Unit :=
  modify fun s => { s with
    diagnostics := s.diagnostics.map (· ++ [.recorded (.unrecognizedKey key)]) }

/-- A fresh array. -/
def freshArray (items : List Value) : Action Value :=
  modifyGet fun s =>
    let (a, heap) := s.heap.addArray items
    (.array a, { s with heap })

/-- A fresh record of these entries. -/
def freshRecord (entries : List (String × Value)) : Action Value :=
  modifyGet fun s =>
    let (r, heap) := s.heap.recordOf entries
    (.record r, { s with heap })

/-- What an action makes of each value, in order. -/
def each (copy : Value → Action Value) : List Value → Action (List Value)
  | [] => pure []
  | v :: rest => do
    let v ← copy v
    return v :: (← each copy rest)

/-- The entries of a record that persist under a model type. -/
def entriesOf (copy : Property → Value → Action Value) (type : ModelType) :
    List (String × Value) → Action (List (String × Value))
  | [] => pure []
  | (key, v) :: rest => do
    if isReserved key then entriesOf copy type rest
    else
      match type.property? key with
      | some p =>
        if p.isPersisted then
          let v ← copy p v
          return (key, v) :: (← entriesOf copy type rest)
        else entriesOf copy type rest
      | none =>
        if type.allowsAdditional then return (key, v) :: (← entriesOf copy type rest)
        else
          noteKey key
          entriesOf copy type rest

/-- A snapshot of data under a model type. Only records have anything to leave out. -/
def dataOf (copy : Property → Value → Action Value) (t : TypeId) (data : Value) :
    Action Value := do
  let type := (← read).schema.type t
  match type.isStructured, data with
  | true, .record r => freshRecord (← entriesOf copy type ((← get).heap.fields r).entries)
  | _, _ => return data

/-- A snapshot of a model's data, by the model's type. -/
def modelOf (copy : Property → Value → Action Value) (m : ModelId) : Action Value := do
  let heap := (← get).heap
  dataOf copy (heap.type m) (heap.data m)

/-- A snapshot of a value nested at most this deep, perhaps that of a declared field. -/
def within : Nat → Option Property → Value → Action Value
  | 0, _, v => pure v
  | depth + 1, p, v => do
    match v with
    | .array a =>
      let element := p.bind (·.elementProperty?)
      freshArray (← each (within depth element) ((← get).heap.items a))
    | .model m => modelOf (fun p => within depth (some p)) m
    | .record r =>
      match ← wrapper? r with
      | some m => modelOf (fun p => within depth (some p)) m
      | none =>
        match p.bind (·.type.model?) with
        | some t => dataOf (fun p => within depth (some p)) t v
        | none => return v
    | _ => return v

/-- A snapshot of a value, the heap with it, and the diagnostics. A value that does not contain
itself is nested at most as deep as there are cells. -/
def take (schema : Schema) (roots : List Value) (heap : Heap)
    (diagnostics : Option (List Diagnostic)) (v : Value) : Value × State :=
  (within (heap.size + 1) none v).run ⟨schema, roots⟩ |>.run ⟨heap, diagnostics⟩

end Overlay.Snapshot
