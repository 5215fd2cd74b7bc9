import Overlay.Options
import Overlay.Schema.Derive
import Overlay.Text.Inspect

/-!
# Schemas as text

The texts that show what types, properties, declarations and options are made of.
-/

namespace Overlay

open Inspect

/-- A property with so many levels of elements. -/
def Property.inspectWithin (s : Schema) (p : Property) : Nat → String
  | 0 => ""
  | depth + 1 => form "Property" [
      ("name", quoted p.name),
      ("storage_key", quoted p.storageKey),
      ("type", quoted (s.name p.type)),
      ("items", option (p.elementProperty?.map fun e => e.inspectWithin s depth)),
      ("persisted", bool p.isPersisted)]

/-- What a property is made of. -/
def Property.inspect (s : Schema) (p : Property) : String :=
  p.inspectWithin s (p.elements.length + 1)

/-- What a model type is made of; the count of properties is that of the nearest layer. -/
def ModelType.inspect (s : Schema) (t : ModelType) : String :=
  form "ModelType" [
    ("name", quoted t.name),
    ("base", option (t.base.map fun b => quoted (s.type b).name)),
    ("properties", option (t.properties.layers.head?.map fun layer => toString layer.size)),
    ("wrapped", bool t.wraps),
    ("additional_properties", bool t.allowsAdditional),
    ("constructable", bool t.allowsInstances)]

/-- The marker of a built-in type. -/
def Builtin.marker (b : Builtin) : String := capitalize b.name

namespace Declaration

mutual

/-- What a declaration is made of. -/
def inspect (s : Schema) : Declaration → String
  | .type t => "Type(" ++ s.name t ++ ")"
  | .marker b => "Primitive(" ++ b.marker ++ ")"
  | .named name => "Named(" ++ quoted name ++ ")"
  | .array ds => "Array(" ++ list (inspectAll s ds) ++ ")"
  | .detailed d e storageKey getter setter isPersisted => form "PropertyConfig" [
      ("type", option (inspect? s d)),
      ("items", option (inspect? s e)),
      ("storage_key", option (storageKey.map quoted)),
      ("get", bool getter.isSome),
      ("set", bool setter.isSome),
      ("persist", bool isPersisted)]

/-- What each declaration is made of. -/
def inspectAll (s : Schema) : List Declaration → List String
  | [] => []
  | d :: rest => inspect s d :: inspectAll s rest

/-- What a declaration that may be missing is made of. -/
def inspect? (s : Schema) : Option Declaration → Option String
  | none => none
  | some d => some (inspect s d)

end

end Declaration

/-- What a derived type adds. -/
def Extension.inspect (s : Schema) (ext : Extension) : String :=
  openForm "TypeConfig" [
    ("name", option (ext.name.map quoted)),
    ("properties", list (ext.properties.map fun (name, d) => pair name (d.inspect s))),
    ("additional_properties", bool ext.allowsAdditional),
    ("constructable", option (ext.allowsInstances.map bool))]

/-- What options are made of. -/
def Options.inspect (o : Options) : String :=
  form "Options" [
    ("collecting", bool o.collects),
    ("strict", bool o.strict),
    ("property", option (o.property.map fun p => quoted p.name))]

/-- What options are made of, followed by what they tell one thing at a time. -/
def Options.describe (o : Options) : String :=
  o.inspect ++ " strict=" ++ bool o.strict ++ " collecting=" ++ bool o.collects
    ++ " errors=" ++ option (o.diagnostics.map fun ds => list (ds.map fun d => quoted d.text))
    ++ " property=" ++ option (o.property.map fun p => quoted p.name)

/-- What settings are made of. -/
def Settings.inspect (s : Settings) : String := form "Settings" [("strict", bool s.strict)]

end Overlay
