import Overlay.Schema.Property

/-!
# Schemas

A `Schema` holds the types of a program. Types are only ever added, and refer to types that were
there before; the first model type is the root, from which all others derive.
-/

namespace Overlay

/-- How values of a model type are wrapped. -/
inductive Wrapping
  /-- By attaching a model to the record. -/
  | standard
  /-- Not at all: values are stored and returned as they are. -/
  | disabled
  /-- By a rule of its own. -/
  | custom (rule : Rule)
  deriving DecidableEq

/-- The values that a way of wrapping keeps. -/
def Wrapping.heldValues : Wrapping → List Value
  | .custom rule => rule.heldValues
  | _ => []

/-- What a method of a model does. -/
inductive Method
  /-- Runs a program. -/
  | hook (actions : Hook)
  /-- Names the constant that the model is. -/
  | constantName (cs : Constants)
  /-- Tells whether the model is the constant of this name. -/
  | isConstant (cs : Constants) (name : String)
  /-- Gives the model's data. -/
  | data
  /-- Takes a snapshot of the model. -/
  | snapshot
  deriving DecidableEq

/-- The values that a method keeps. -/
def Method.heldValues : Method → List Value
  | .hook actions => Hook.heldValues actions
  | .constantName cs => cs.heldValues
  | .isConstant cs _ => cs.heldValues
  | _ => []

/-- What a name that can be called on a model stands for. -/
inductive Callee
  /-- Reads a property. -/
  | read (p : Property)
  /-- Writes a property. -/
  | write (p : Property)
  /-- Runs a method. -/
  | method (m : Method)
  deriving DecidableEq

/-- The values that stay in use because a name stands for this. -/
def Callee.heldValues : Callee → List Value
  | .read p => p.heldValues
  | .write p => p.heldValues
  | .method m => m.heldValues

/-- A type with declared properties, derived from another. -/
structure ModelType where
  /-- The name. -/
  name : String
  /-- The type it derives from; only the root has none. -/
  base : Option TypeId
  /-- The properties, inherited ones included. -/
  properties : PropertyLayers
  /-- The accessors of the properties declared here. -/
  accessors : List (String × Callee)
  /-- The methods declared here. -/
  methods : List (String × Method)
  /-- Runs on every new instance, of derived types too. -/
  init : Option Rule
  /-- How values are wrapped. -/
  wrap : Wrapping
  /-- Gives the raw form of an instance. -/
  unwrap : Option Hook
  /-- Reading a field of this type gives the raw value. -/
  readsRaw : Bool
  /-- Coerces values to the type. -/
  coerce : Option Rule
  /-- Records may have keys that are not declared. -/
  allowsAdditional : Bool
  /-- Instances may be made. -/
  allowsInstances : Bool
  /-- Facts about the type, by name. -/
  metadata : List (String × Value)
  deriving DecidableEq

/-- A type that brings its own way of wrapping and neither coerces nor declares anything. -/
structure AdapterType where
  /-- The name. -/
  name : String
  /-- Values are represented by what the hook makes of them. -/
  wraps : Bool
  /-- Reading a field of this type gives the raw value. -/
  readsRaw : Bool
  /-- The type it counts as derived from. -/
  base : Option DataType
  /-- Wraps a value. -/
  wrap : Hook
  deriving DecidableEq

namespace ModelType

/-- The type at the root. -/
def root : ModelType where
  name := "Model"
  base := none
  properties := .empty
  accessors := []
  methods := []
  init := none
  wrap := .standard
  unwrap := none
  readsRaw := false
  coerce := none
  allowsAdditional := false
  allowsInstances := true
  metadata := []

/-- The type or one it derives from declares a property. -/
def isStructured (t : ModelType) : Bool := !t.properties.layers.isEmpty

/-- The property of this name or storage key. -/
def property? (t : ModelType) (key : String) : Option Property := t.properties.get? key

/-- Values are represented by models or by what a rule makes of them. -/
def wraps (t : ModelType) : Bool := t.wrap != .disabled

/-- The values that the type keeps. A property that another one has replaced under its key is still
kept by its accessors. -/
def heldValues (t : ModelType) : List Value :=
  (t.properties.layers.flatMap fun layer => layer.entries.flatMap fun e => e.2.heldValues)
    ++ (t.accessors.flatMap fun e => e.2.heldValues) ++ (t.methods.flatMap fun e => e.2.heldValues)
    ++ t.init.elim [] Rule.heldValues ++ t.wrap.heldValues ++ t.unwrap.elim [] Hook.heldValues
    ++ t.coerce.elim [] Rule.heldValues ++ t.metadata.map Prod.snd

end ModelType

/-- The types of a program. -/
structure Schema where
  /-- The model types, the root first. -/
  models : Array ModelType
  /-- The adapter types. -/
  adapters : Array AdapterType
  deriving DecidableEq

namespace Schema

/-- The root alone. -/
def initial : Schema := ⟨#[.root], #[]⟩

instance : Inhabited Schema := ⟨initial⟩

variable (s : Schema)

/-- The model type at its place; a place that does not exist holds another root. -/
def type (t : TypeId) : ModelType := s.models[t.index]?.getD .root

/-- The adapter type at its place. -/
def adapter? (a : AdapterId) : Option AdapterType := s.adapters[a.index]?

/-- The place of the next model type. -/
def nextModel : TypeId := ⟨s.models.size⟩

/-- A new model type. -/
def addModel (t : ModelType) : TypeId × Schema :=
  (s.nextModel, { s with models := s.models.push t })

/-- A new adapter type. -/
def addAdapter (a : AdapterType) : AdapterId × Schema :=
  (⟨s.adapters.size⟩, { s with adapters := s.adapters.push a })

/-- The values that the types keep. -/
def heldValues : List Value :=
  s.models.toList.flatMap ModelType.heldValues
    ++ s.adapters.toList.flatMap fun a => Hook.heldValues a.wrap

/-! ### Properties of types -/

/-- The name of a type. -/
def name : DataType → String
  | .builtin b => b.name
  | .model t => (s.type t).name
  | .adapter a => (s.adapter? a).elim "" (·.name)

/-- Values of the type are represented by something else than themselves. -/
def wraps : DataType → Bool
  | .builtin _ => false
  | .model t => (s.type t).wraps
  | .adapter a => (s.adapter? a).elim false (·.wraps)

/-- Reading a field of the type gives the raw value. -/
def readsRaw : DataType → Bool
  | .builtin _ => false
  | .model t => (s.type t).readsRaw
  | .adapter a => (s.adapter? a).elim false (·.readsRaw)

/-- The type that a type derives from. -/
def base? : DataType → Option DataType
  | .builtin _ => none
  | .model t => (s.type t).base.map .model
  | .adapter a => (s.adapter? a).bind (·.base)

/-- More types than any lineage has. -/
def lineageBound : Nat := s.models.size + s.adapters.size + 1

/-- A model type and those it derives from, the root last; at most so many of them. -/
def ancestorsWithin : Nat → TypeId → List TypeId
  | 0, _ => []
  | bound + 1, t => t :: ((s.type t).base.elim [] (ancestorsWithin bound))

/-- A model type and those it derives from, the root last. -/
def ancestors (t : TypeId) : List TypeId := s.ancestorsWithin s.lineageBound t

/-- The model type is the other one or derives from it. -/
def derivesFrom (t u : TypeId) : Bool := (s.ancestors t).contains u

/-- A type and those it derives from; at most so many of them. -/
def lineageWithin : Nat → DataType → List DataType
  | 0, _ => []
  | bound + 1, t => t :: ((s.base? t).elim [] (lineageWithin bound))

/-- A type and those it derives from. -/
def lineage (t : DataType) : List DataType := s.lineageWithin s.lineageBound t

/-- The type is the other one or derives from it. -/
def fits (t u : DataType) : Bool := (s.lineage t).contains u

/-! ### Methods -/

/-- What the name stands for among the methods and accessors declared by a type itself. The last
method of a name counts, before any accessor. -/
def ownCallee? (t : ModelType) (name : String) : Option Callee :=
  ((t.methods.reverse.lookup name).map .method).or (t.accessors.lookup name)

/-- What the name stands for on an instance of a type: the nearest type of its ancestry that knows
the name decides. -/
def callee? (t : TypeId) (name : String) : Option Callee :=
  (s.ancestors t).findSome? fun u => ownCallee? (s.type u) name

/-- The type declares no properties and has those of the type it derives from. -/
def sharesProperties (t : TypeId) : Bool :=
  let type := s.type t
  type.isStructured && type.base.any fun b => (s.type b).properties == type.properties

/-- The nearest hook of the ancestry that gives the raw form of an instance. -/
def unwrapping? (t : TypeId) : Option Hook :=
  (s.ancestors t).findSome? fun u => (s.type u).unwrap

/-- What runs on a new instance of a type, the root's part first. -/
def initRules (t : TypeId) : List Rule :=
  (s.ancestors t).reverse.filterMap fun u => (s.type u).init

/-- The fact under a key, the first one declared. -/
def fact? (t : TypeId) (key : String) : Option Value := (s.type t).metadata.lookup key

end Schema

end Overlay
