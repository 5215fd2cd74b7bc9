import Overlay.Schema.Declaration

/-!
# Deriving model types

An `Extension` says what a derived type adds to its base, and `Schema.derive` adds the derived
type to a schema. A type that declares properties gets a layer of its own on top of its base's, and
two accessors for each of them; one that declares none shares its base's layers.
-/

namespace Overlay

/-- What a derived type adds to its base. -/
structure Extension where
  /-- The name; the base's unless given. -/
  name : Option String
  /-- The properties in order. -/
  properties : List (String × Declaration)
  /-- Runs on every new instance. -/
  init : Option Rule
  /-- How values are wrapped. -/
  wrap : Wrapping
  /-- Gives the raw form of an instance. -/
  unwrap : Option Hook
  /-- Reading a field of this type gives the raw value. -/
  readsRaw : Bool
  /-- Coerces values to the type. -/
  coerce : Option Rule
  /-- Records may have keys that are not declared. -/
  allowsAdditional : Bool
  /-- Instances may be made; they may unless said otherwise. -/
  allowsInstances : Option Bool
  /-- The methods. -/
  methods : List (String × Method)
  /-- Facts about the type, by name. -/
  metadata : List (String × Value)

namespace Extension

/-- Nothing added. -/
def empty : Extension where
  name := none
  properties := []
  init := none
  wrap := .standard
  unwrap := none
  readsRaw := false
  coerce := none
  allowsAdditional := false
  allowsInstances := none
  methods := []
  metadata := []

/-- Puts a declaration in place of one of the same name, or else at the end. -/
def declare (name : String) (d : Declaration) :
    List (String × Declaration) → List (String × Declaration)
  | [] => [(name, d)]
  | (n, d') :: rest => if n = name then (n, d) :: rest else (n, d') :: declare name d rest

/-- Declarations one after the other, each name once. -/
def declarations (ds : List (String × Declaration)) : List (String × Declaration) :=
  ds.foldl (fun before (name, d) => declare name d before) []

end Extension

/-- The properties of these declarations, or the error of the first that means nothing. -/
def declareAll (scope : Scope) : List (String × Declaration) → Except Error (List Property)
  | [] => .ok []
  | (name, d) :: rest => do
    let p ← Property.declare scope name d
    return p :: (← declareAll scope rest)

/-- The accessors of a property: `get` and `set` before its name with a capital. -/
def Property.accessors (p : Property) : List (String × Callee) :=
  [("get" ++ capitalize p.name, .read p), ("set" ++ capitalize p.name, .write p)]

/-- The layer of these properties. -/
def PropertyLayer.ofList (ps : List Property) : PropertyLayer := ps.foldl insert empty

/-- The type derived from a base by an extension with these properties. -/
def ModelType.extended (baseId : TypeId) (base : ModelType) (ext : Extension)
    (ps : List Property) : ModelType where
  name := ext.name.getD base.name
  base := some baseId
  properties := if ps.isEmpty then base.properties else base.properties.push (.ofList ps)
  accessors := ps.flatMap Property.accessors
  methods := ext.methods
  init := ext.init
  wrap := ext.wrap
  unwrap := ext.unwrap
  readsRaw := ext.readsRaw
  coerce := ext.coerce
  allowsAdditional := ext.allowsAdditional
  allowsInstances := ext.allowsInstances.getD true
  metadata := ext.metadata

/-- Adds the type that derives from a base by an extension. -/
def Schema.derive (s : Schema) (base : TypeId) (ext : Extension) (scope : Scope) :
    Except Error (TypeId × Schema) := do
  let ps ← declareAll scope ext.properties
  return s.addModel (.extended base (s.type base) ext ps)

end Overlay
