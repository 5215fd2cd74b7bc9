import Overlay.Schema.Hook

/-!
# Properties

A `Property` describes one declared field: its name, the key it is stored under, its type and, for
arrays, the types of the elements. `PropertyLayers` holds the properties of a model type in
layers, one for each type of its ancestry that declares any; a property is listed under its name
and, if that is another, its storage key.
-/

namespace Overlay

/-- The description of a declared field. -/
structure Property where
  /-- The name seen from outside. -/
  name : String
  /-- The key in the record. -/
  storageKey : String
  /-- The declared type. -/
  type : DataType
  /-- The types of the elements, of their elements, and so on as far as they are declared. -/
  elements : List DataType
  /-- Runs in place of reading. -/
  getter : Option Hook
  /-- Runs in place of writing. -/
  setter : Option Hook
  /-- Snapshots keep the field. -/
  isPersisted : Bool
  deriving DecidableEq

namespace Property

/-- The description of the elements of an array: named and stored as their owner, persisted, and
without accessors of their own. -/
def elementProperty? (p : Property) : Option Property :=
  match p.elements with
  | [] => none
  | type :: elements => some ⟨p.name, p.storageKey, type, elements, none, none, true⟩

/-- The values that the accessors keep. -/
def heldValues (p : Property) : List Value :=
  (p.getter.elim [] Hook.heldValues) ++ (p.setter.elim [] Hook.heldValues)

end Property

/-- The properties that one type declares, by name and storage key. -/
structure PropertyLayer where
  /-- The entries, oldest key first. -/
  entries : List (String × Property)
  deriving DecidableEq

namespace PropertyLayer

/-- No properties. -/
def empty : PropertyLayer := ⟨[]⟩

/-- Lists a property under a key, in place of what was there. -/
def put (key : String) (p : Property) : List (String × Property) → List (String × Property)
  | [] => [(key, p)]
  | (k, q) :: rest => if k = key then (k, p) :: rest else (k, q) :: put key p rest

/-- Lists a property under its name and, if that is another, its storage key. -/
def insert (layer : PropertyLayer) (p : Property) : PropertyLayer :=
  let entries := put p.name p layer.entries
  ⟨if p.storageKey = p.name then entries else put p.storageKey p entries⟩

/-- The property under a key. -/
def get? (layer : PropertyLayer) (key : String) : Option Property := layer.entries.lookup key

/-- The properties listed under their own names. -/
def declared (layer : PropertyLayer) : List Property :=
  layer.entries.filterMap fun (key, p) => if key = p.name then some p else none

/-- The number of properties declared in the layer. -/
def size (layer : PropertyLayer) : Nat := layer.declared.length

end PropertyLayer

/-- The properties of a model type, in layers. -/
structure PropertyLayers where
  /-- The layers, that of the most derived type first. -/
  layers : List PropertyLayer
  deriving DecidableEq

namespace PropertyLayers

/-- No layers. -/
def empty : PropertyLayers := ⟨[]⟩

/-- A new layer in front. -/
def push (ps : PropertyLayers) (layer : PropertyLayer) : PropertyLayers := ⟨layer :: ps.layers⟩

/-- The property under a key in the most derived layer that lists the key. -/
def get? (ps : PropertyLayers) (key : String) : Option Property := ps.layers.findSome? (·.get? key)

/-- The properties whose names are not among those seen, layer by layer, each name once. -/
def visibleAfter (seen : List String) : List PropertyLayer → List Property
  | [] => []
  | layer :: rest =>
    let fresh := firstByName seen layer.declared
    fresh ++ visibleAfter (fresh.map (·.name) ++ seen) rest
where
  /-- The first property of each name not seen. -/
  firstByName (seen : List String) : List Property → List Property
    | [] => []
    | p :: rest =>
      if seen.contains p.name then firstByName seen rest
      else p :: firstByName (p.name :: seen) rest

/-- The properties that can be seen: in the order of declaration, the most derived layer first,
without those that a derived type declares anew. -/
def visible (ps : PropertyLayers) : List Property := visibleAfter [] ps.layers

end PropertyLayers

end Overlay
