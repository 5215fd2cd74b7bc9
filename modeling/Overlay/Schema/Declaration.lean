import Overlay.Schema.Basic
import Overlay.Text.UpperCase

/-!
# Declarations

A `Declaration` is how the type of a property is written down: a type itself, a name with any
number of `[]` after it, an array around a declaration of its elements, or any of these in detail.
`Declaration.shape` is the type that it means, together with the types of elements, and
`Property.declare` makes the property.

* `Scope.shapeOf_brackets` : each `[]` after a name adds one array around what the name means.
-/

namespace Overlay

/-- How the type of a property is written down. -/
inductive Declaration
  /-- A type. -/
  | type (t : DataType)
  /-- A marker for a built-in type. -/
  | marker (b : Builtin)
  /-- A name, perhaps with `[]` after it. -/
  | named (name : String)
  /-- An array; the first entry declares its elements. -/
  | array (items : List Declaration)
  /-- A type with its elements, storage key, accessors and persistence. -/
  | detailed (type items : Option Declaration) (storageKey : Option String)
      (getter setter : Option Hook) (isPersisted : Bool)

/-- A type with the types of its elements. -/
structure Shape where
  /-- The type. -/
  type : DataType
  /-- The types of the elements, of their elements, and so on as far as they are declared. -/
  elements : List DataType
  deriving DecidableEq

namespace Shape

/-- A type without declared elements. -/
def plain (t : DataType) : Shape := ⟨t, []⟩

/-- An array of these. -/
def array (element : Shape) : Shape := ⟨.builtin .array, element.type :: element.elements⟩

/-- The same type with these elements. -/
def withElement (shape element : Shape) : Shape :=
  { shape with elements := element.type :: element.elements }

end Shape

/-- The types that names stand for besides the built-in ones. -/
abbrev Scope := String → Option DataType

namespace Scope

/-- No names. -/
def none : Scope := fun _ => Option.none

variable (scope : Scope)

/-- What a name without brackets means. Built-in names cannot be given another meaning. -/
def plainShapeOf (name : String) : Except Error Shape :=
  match Builtin.ofName? name with
  | some b => .ok (.plain (.builtin b))
  | Option.none =>
    match scope name with
    | some t => .ok (.plain t)
    | Option.none => .error (.unknownType name)

/-- What a name means whose characters are given back to front. -/
def shapeOfReversed : List Char → Except Error Shape
  | ']' :: '[' :: rest => (shapeOfReversed rest).map .array
  | cs => scope.plainShapeOf (String.ofList cs.reverse)

/-- What a name means, where each `[]` at the end stands for an array. -/
def shapeOf (name : String) : Except Error Shape := scope.shapeOfReversed name.toList.reverse

theorem shapeOf_brackets (name : String) :
    scope.shapeOf (name ++ "[]") = (scope.shapeOf name).map .array := by
  simp [shapeOf, shapeOfReversed]

end Scope

/-- What a declaration means. Elements declared in detail count only where the type does not
settle them. -/
def Declaration.shape (scope : Scope) (d : Declaration) : Except Error Shape :=
  match d with
  | .type t => .ok (.plain t)
  | .marker b => .ok (.plain (.builtin b))
  | .named name => scope.shapeOf name
  | .array [] => .ok (.plain (.builtin .array))
  | .array (d :: _) => (shape scope d).map .array
  | .detailed none _ _ _ _ _ => .ok (.plain (.builtin .object))
  | .detailed (some d) none _ _ _ _ => shape scope d
  | .detailed (some d) (some e) _ _ _ _ => do
    let outer ← shape scope d
    if outer.elements.isEmpty then return outer.withElement (← shape scope e) else return outer
termination_by structural d

/-- The property of this name and declaration. -/
def Property.declare (scope : Scope) (name : String) (d : Declaration) : Except Error Property := do
  let ⟨type, elements⟩ ← d.shape scope
  match d with
  | .detailed _ _ storageKey getter setter isPersisted =>
    return ⟨name, storageKey.getD name, type, elements, getter, setter, isPersisted⟩
  | _ => return ⟨name, name, type, elements, none, none, true⟩

end Overlay
