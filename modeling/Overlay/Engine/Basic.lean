import Overlay.Heap.Text
import Overlay.Options
import Overlay.Schema.Basic
import Overlay.Snapshot

/-!
# Operations of the engine

The operations on models call one another: constructing a model writes its properties, writing one
wraps its value, and wrapping constructs. `Operation` names them, and an `Engine` computation is a
run of such operations on a state.

* A failed run keeps what it changed before it failed.
* `Engine.signal` is the one place that decides whether an error stops a run or is recorded.
* `Engine.holding` keeps values in use while something else runs, so that models attached to
  records can be found.
-/

namespace Overlay

/-- What a run changes. -/
structure State where
  /-- The shared data. -/
  heap : Heap
  /-- The options, with the diagnostics so far. -/
  options : Options
  /-- What hooks have logged, oldest first. -/
  log : List String

/-- What a run sees. -/
structure Context where
  /-- The types. -/
  schema : Schema
  /-- The values in use outside of the heap. -/
  held : List Value

/-- Why a run ended without a result. -/
inductive Fault
  /-- An error stopped it. -/
  | error (e : Error)
  /-- It nested more operations than it was allowed to. -/
  | exhausted

/-- A computation on the state. -/
def Engine (α : Type) : Type := Context → State → Except Fault α × State

namespace Engine

variable {α β : Type}

instance : Monad Engine where
  pure a := fun _ s => (.ok a, s)
  bind act next := fun c s =>
    match act c s with
    | (.ok a, s) => next a c s
    | (.error fault, s) => (.error fault, s)

theorem pure_run (a : α) (c : Context) (s : State) : (pure a : Engine α) c s = (.ok a, s) := rfl

theorem bind_run (act : Engine α) (next : α → Engine β) (c : Context) (s : State) :
    (act >>= next) c s =
      match act c s with
      | (.ok a, s) => next a c s
      | (.error fault, s) => (.error fault, s) := rfl

/-- Stops with an error. -/
def raise (e : Error) : Engine α := fun _ s => (.error (.error e), s)

/-- Stops because operations are nested too deep. -/
def exhausted : Engine α := fun _ s => (.error .exhausted, s)

/-- The types. -/
def schema : Engine Schema := fun c s => (.ok c.schema, s)

/-- The shared data. -/
def heap : Engine Heap := fun _ s => (.ok s.heap, s)

/-- The options. -/
def options : Engine Options := fun _ s => (.ok s.options, s)

/-- Changes the shared data. -/
def changeHeap (f : Heap → Heap) : Engine Unit := fun _ s => (.ok (), { s with heap := f s.heap })

/-- Adds a cell to the shared data. -/
def allocate (f : Heap → α × Heap) : Engine α := fun _ s =>
  let (a, heap) := f s.heap
  (.ok a, { s with heap })

/-- Appends to the log. -/
def log (line : String) : Engine Unit := fun _ s => (.ok (), { s with log := s.log ++ [line] })

/-- Runs while more values are in use. -/
def holding (vs : List Value) (act : Engine α) : Engine α := fun c s =>
  act { c with held := vs ++ c.held } s

/-- The result of a run, or of another one if an error stopped the first. -/
def orElse (act : Engine α) (other : Engine α) : Engine α := fun c s =>
  match act c s with
  | (.error (.error _), s) => other c s
  | result => result

/-! ### Options -/

/-- Records an error and gives the undefined value if it can be recorded, and else raises it. -/
def signal (e : Error) : Engine Value := fun _ s =>
  match s.options.record? e with
  | some options => (.ok .undefined, { s with options })
  | none => (.error (.error e), s)

/-- Signals that a value is invalid for the property at hand. -/
def invalid (v : Value) : Engine Value := do
  let property := (← options).property.map (·.name)
  signal (.invalidValue property ((← heap).text v))

/-- Runs with a property at hand, and has the one before at hand again afterwards. -/
def concerning (p : Property) (act : Engine α) : Engine α := fun c s =>
  let before := s.options.property
  match act c { s with options := { s.options with property := some p } } with
  | (result, s) => (result, { s with options := { s.options with property := before } })

/-- Runs in throwing mode, apart from the options at hand. -/
def apart (act : Engine α) : Engine α := fun c s =>
  let before := s.options
  match act c { s with options := .throwing } with
  | (result, s) => (result, { s with options := before })

/-! ### Models -/

/-- The values in use: those outside of the heap and those that types keep. -/
def roots : Engine (List Value) := fun c s => (.ok (c.held ++ c.schema.heldValues), s)

/-- The model attached to a record, if something holds it. -/
def wrapper? (r : RecordId) : Engine (Option ModelId) := do
  let h ← heap
  match h.attached? r with
  | none => return none
  | some _ => return h.wrapper? (← roots) r

/-- The type that a model is an instance of. -/
def typeOf (m : ModelId) : Engine ModelType := do
  return (← schema).type ((← heap).type m)

/-- The model is an instance of a type or of one derived from it. -/
def isInstance (m : ModelId) (t : TypeId) : Engine Bool := do
  return (← schema).derivesFrom ((← heap).type m) t

/-- A snapshot of a model; keys that are not recognised are passed over. -/
def snapshot (m : ModelId) : Engine Value := fun c s =>
  let (v, snapped) :=
    Snapshot.take c.schema (c.held ++ c.schema.heldValues) s.heap none (.model m)
  (.ok v, { s with heap := snapped.heap })

/-- The property of a model's type under a name or storage key. -/
def property (m : ModelId) (name : String) : Engine Property := do
  let t ← typeOf m
  match t.property? name with
  | some p => return p
  | none => raise (.unknownProperty t.name name)

end Engine

/-! ### The operations -/

/-- An operation on models, with the type of its result. -/
inductive Operation : Type → Type
  /-- Normalises a value for a type. -/
  | coerce (t : DataType) (v : Value) : Operation Value
  /-- The wrapped form of a value. -/
  | wrap (t : DataType) (v : Value) : Operation Value
  /-- A new model around data. -/
  | create (t : TypeId) (data : Option Value) : Operation ModelId
  /-- The value of a property. -/
  | get (m : ModelId) (p : Property) : Operation Value
  /-- Writes a property. -/
  | set (m : ModelId) (p : Property) (v : Value) : Operation Unit
  /-- Calls an accessor or a method. -/
  | call (m : ModelId) (method : String) (arguments : List Value) : Operation Value

/-- How an operation has another one done. -/
abbrev Perform : Type 1 := ∀ {α : Type}, Operation α → Engine α

end Overlay
