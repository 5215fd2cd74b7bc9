import Overlay.Engine.Calls
import Overlay.Enumeration
import Overlay.Interchange.Values
import Overlay.Schema.Catalog

/-!
# Sessions

A `Session` is a program's state between operations: the shared data, the types, and what the
program has given names to. The values it has named, and those that named properties keep, are
the ones in use; all else lives on only through them and the types. `Session.run` runs a
computation of the engine on it.
-/

namespace Overlay

/-- What a name of a type stands for. -/
inductive NamedType
  /-- Some type; nothing more is known of it. -/
  | plain (t : DataType)
  /-- A model type. -/
  | model (t : TypeId)
  /-- An enumeration. -/
  | enumeration (e : Enumeration)

namespace NamedType

/-- The type. -/
def ref : NamedType → DataType
  | plain t => t
  | model t => .model t
  | enumeration e => .model e.type

/-- The model type, if it is known to be one. -/
def model? : NamedType → Option TypeId
  | plain _ => none
  | model t => some t
  | enumeration e => some e.type

/-- The enumeration, if it is known to be one. -/
def enumeration? : NamedType → Option Enumeration
  | enumeration e => some e
  | _ => none

end NamedType

/-- A program's state between operations. -/
structure Session where
  /-- The shared data. -/
  heap : Heap
  /-- The types. -/
  schema : Schema
  /-- The types registered under names. -/
  catalog : Catalog
  /-- The named values. -/
  values : List (String × Value)
  /-- The named types. -/
  types : List (String × NamedType)
  /-- The named properties. -/
  properties : List (String × Property)

/-- How a run ended. -/
structure Outcome (α : Type) where
  /-- Its result. -/
  result : Except Fault α
  /-- The diagnostics, when they were collected. -/
  diagnostics : Option (List Diagnostic)
  /-- What hooks logged. -/
  log : List String

namespace Session

/-- Nothing but the built-in types and the root of the model types. -/
def initial : Session where
  heap := .empty
  schema := .initial
  catalog := .empty
  values := []
  types := ("Model", .model .root) :: Builtin.all.map fun b => (b.name, .plain (.builtin b))
  properties := []

instance : Inhabited Session := ⟨initial⟩

/-- Puts an entry in place of any other of the same name. -/
def assign {α : Type} (name : String) (a : α) (entries : List (String × α)) : List (String × α) :=
  (name, a) :: entries.filter fun e => e.1 ≠ name

variable (s : Session)

/-- The value of a name. -/
def valueOf? (name : String) : Option Value := s.values.lookup name

/-- The type of a name. -/
def type? (name : String) : Option NamedType := s.types.lookup name

/-- The property of a name. -/
def property? (name : String) : Option Property := s.properties.lookup name

/-- Names a value; the one it named before is let go. -/
def setValue (name : String) (v : Value) : Session :=
  { s with values := assign name v s.values }

/-- Lets go of the value of a name. -/
def dropValue (name : String) : Session :=
  { s with values := s.values.filter fun e => e.1 ≠ name }

/-- Names a type. -/
def setType (name : String) (t : NamedType) : Session := { s with types := assign name t s.types }

/-- Names a property. -/
def setProperty (name : String) (p : Property) : Session :=
  { s with properties := assign name p s.properties }

/-- The values in use apart from those that types keep. -/
def held : List Value := s.values.map Prod.snd ++ s.properties.flatMap fun e => e.2.heldValues

/-- The values in use while these are in use too. -/
def rootsWith (vs : List Value) : List Value := vs ++ s.held ++ s.schema.heldValues

/-- The meaning of names in declarations: the session's own types. -/
def scope : Scope := fun name => (s.type? name).map NamedType.ref

/-! ### Types -/

/-- Derives a model type. -/
def derive (base : TypeId) (ext : Extension) (scope : Scope) : Except Error (TypeId × Session) := do
  let (t, schema) ← s.schema.derive base ext scope
  return (t, { s with schema })

/-- Derives a model type from the root and registers it. -/
def deriveRegistered (name : String) (ext : Extension) : Except Error (TypeId × Session) := do
  let (t, catalog, schema) ← s.catalog.define s.schema name ext
  return (t, { s with schema, catalog })

/-- Makes an enumeration. -/
def enumerate (spec : Enumeration.Spec) :
    Except Enumeration.SpecError (Enumeration × Session) := do
  let (e, schema, heap) ← Enumeration.define spec s.schema s.heap
  return (e, { s with schema, heap })

/-- Adds an adapter type. -/
def addAdapter (a : AdapterType) : AdapterId × Session :=
  let (id, schema) := s.schema.addAdapter a
  (id, { s with schema })

/-- Registers a type. -/
def register (name : String) (t : DataType) : Session :=
  { s with catalog := s.catalog.register name t }

/-! ### Values -/

/-- Runs a computation with these options. -/
def run {α : Type} (options : Options) (act : Engine α) : Outcome α × Session :=
  let (result, state) := act ⟨s.schema, s.held⟩ ⟨s.heap, options, []⟩
  (⟨result, state.options.diagnostics, state.log⟩, { s with heap := state.heap })

/-- A snapshot of a value, with the keys that were not recognised if they are asked for. -/
def snapshot (noting : Bool) (v : Value) : Value × Option (List Diagnostic) × Session :=
  let diagnostics := if noting then some [] else none
  let (copy, state) := Snapshot.take s.schema (s.rootsWith [v]) s.heap diagnostics v
  (copy, state.diagnostics, { s with heap := state.heap })

/-- The JSON tree of a value. -/
def jsonTree (v : Value) : Json := Interchange.treeOf s.schema (s.rootsWith [v]) s.heap v

/-- The JSON text of a value, on one line or indented. -/
def jsonText (pretty : Bool) (v : Value) : String :=
  Interchange.textOf s.schema (s.rootsWith [v]) s.heap pretty v

/-- A fresh value of a JSON text. -/
def loadJson (text : String) : Except Error (Value × Session) := do
  let (v, heap) ← Interchange.loadText text s.heap
  return (v, { s with heap })

/-- What a value is made of. -/
def inspect (v : Value) : String := s.heap.inspect (fun t => (s.schema.type t).name) v

end Session

end Overlay
