import Overlay.Engine.Access
import Overlay.Engine.Coerce
import Overlay.Engine.Construct

/-!
# Running operations

`Operation.body` says what an operation does, given a way to have others done; `Engine.perform`
ties the knot, with a bound on how deep operations nest. Types refer to earlier types only, so
without hooks the depth of the schema bounds the nesting, whatever the data: `Schema.budget`.
-/

namespace Overlay

namespace Engine

/-- Coercion by any type. -/
def coerceBy (perform : Perform) (t : DataType) (v : Value) : Engine Value :=
  match t with
  | .builtin b => coerceBuiltin (stored perform) b v
  | .model t => coerceUnder perform t v
  | .adapter _ => return v

/-- Wrapping by any type. Built-in types have no wrapped form and coerce. -/
def wrapBy (perform : Perform) (t : DataType) (v : Value) : Engine Value := do
  match t with
  | .builtin b => coerceBuiltin (stored perform) b v
  | .model t => wrapUnder perform t v
  | .adapter a =>
    match (← schema).adapter? a with
    | some adapter => runHook perform .adapter adapter.wrap v
    | none => return v

/-- Runs a method. -/
def runMethod (perform : Perform) (m : ModelId) (method : Method) (arguments : List Value) :
    Engine Value := do
  match method with
  | .hook actions => runHook perform (.method m arguments) actions (arguments.headD .undefined)
  | .constantName cs => constantName cs m
  | .isConstant cs name => isConstant cs name m
  | .data => return (← heap).data m
  | .snapshot => snapshot m

/-- Calls an accessor or a method. -/
def callMethod (perform : Perform) (m : ModelId) (name : String) (arguments : List Value) :
    Engine Value :=
  holding (.model m :: arguments) do
    let t := (← heap).type m
    match (← schema).callee? t name with
    | some (.read p) => perform (.get m p)
    | some (.write p) =>
      apart (perform (.set m p (arguments.headD .undefined)))
      return .undefined
    | some (.method method) => runMethod perform m method arguments
    | none => raise (.unknownMethod ((← schema).type t).name name)

end Engine

open Engine

/-- What an operation does. -/
def Operation.body (perform : Perform) {α : Type} : Operation α → Engine α
  | .coerce t v => coerceBy perform t v
  | .wrap t v => wrapBy perform t v
  | .create t data => construct perform t data
  | .get m p => readProperty perform m p
  | .set m p v => writeProperty perform m p v
  | .call m name arguments => callMethod perform m name arguments

/-- Does an operation that nests others at most this deep. -/
def Engine.perform : Nat → Perform
  | 0, _, _ => exhausted
  | depth + 1, _, operation => operation.body (Engine.perform depth)

/-! ### The bound -/

/-- The actions of a rule. -/
def Rule.actions : Rule → List Action
  | .hook actions => actions
  | .constants _ => []

/-- The actions of a way of wrapping. -/
def Wrapping.actions : Wrapping → List Action
  | .custom rule => rule.actions
  | _ => []

/-- The actions of a method. -/
def Method.actions : Method → List Action
  | .hook actions => actions
  | _ => []

/-- The element types of a property and the actions of its accessors, counted. -/
def Property.weight (p : Property) : Nat :=
  p.elements.length + (p.getter.getD []).length + (p.setter.getD []).length

/-- The actions of the hooks that a type declares, those of its properties aside. -/
def ModelType.actions (t : ModelType) : List Action :=
  (t.methods.flatMap fun e => e.2.actions) ++ t.init.elim [] Rule.actions ++ t.wrap.actions
    ++ t.coerce.elim [] Rule.actions ++ t.unwrap.getD []

/-- The weight of the property that an accessor reads or writes. -/
def Callee.weight : Callee → Nat
  | .read p => p.weight
  | .write p => p.weight
  | .method _ => 0

/-- The weight of the properties and hooks of a type. -/
def ModelType.weight (t : ModelType) : Nat :=
  t.properties.layers.foldr (fun layer n => layer.entries.foldr (·.2.weight + ·) n)
    (t.accessors.foldr (·.2.weight + ·) t.actions.length)

/-- The number of types and their weight. -/
def Schema.weight (s : Schema) : Nat :=
  s.models.toList.foldr (·.weight + 1 + ·) 0 + s.adapters.toList.foldr (·.wrap.length + 1 + ·) 0

/-- How deep operations may nest that involve this much besides the schema. Without hooks, entering
a nested model takes three operations and entering an array one, and no chain of nested types is
longer than the schema; hooks that end at all end within a small multiple of their actions. -/
def Schema.budget (s : Schema) (besides : Nat) : Nat := 1000000 + 64 * (s.weight + besides + 16)

/-- The weight of the property that an operation is about. -/
def Operation.weight {α : Type} : Operation α → Nat
  | .get _ p => p.weight
  | .set _ p _ => p.weight
  | _ => 0

/-- Does an operation. -/
def Operation.run {α : Type} (operation : Operation α) : Engine α := fun c s =>
  Engine.perform (c.schema.budget operation.weight) operation c s

end Overlay
