import Overlay.Engine.Constants
import Overlay.Schema.Derive
import Overlay.Text.Inspect

/-!
# Enumerations

An enumeration is a model type without properties whose instances are a fixed list of named
constants. Its values are stored raw; wrapping a name, a raw value or a constant gives the shared
constant, and coercion gives its raw value.

* `Enumeration.define` makes the type and its constants together, so that the rules of the type
  know them from the start;
* `Enumeration.duplicate?_eq_none_iff` : the names pass the check iff no two are the same.
-/

namespace Overlay

namespace Enumeration

/-- What an enumeration declares. -/
structure Spec where
  /-- The name of the type. -/
  name : Option String
  /-- The names of the constants and their raw values. -/
  values : List (String × Value)
  /-- Names are put into upper case before they are looked up. -/
  upperCased : Bool

namespace Spec

/-- Constants whose raw value is their own name. -/
def ofNames (names : List String) : Spec := ⟨none, names.map fun n => (n, .string n), false⟩

/-- Constants with raw values of their own. -/
def ofValues (values : List (String × Value)) : Spec := ⟨none, values, false⟩

end Spec

/-- Why an enumeration cannot be made. -/
inductive SpecError
  /-- It has no constants. -/
  | noConstants
  /-- Two constants have the same name. -/
  | sameName (name : String)
  deriving DecidableEq, Repr

/-- The text of the error. -/
def SpecError.message : SpecError → String
  | noConstants => "enum declares no values"
  | sameName name => "duplicate enum constant: " ++ name

end Enumeration

/-- A model type with its constants. -/
structure Enumeration where
  /-- The type. -/
  type : TypeId
  /-- The constants. -/
  constants : Constants
  deriving DecidableEq

namespace Enumeration

/-! ### Making an enumeration -/

/-- The first name that is among those seen or came before. -/
def duplicate? : List String → List String → Option String
  | _, [] => none
  | seen, name :: rest => if seen.contains name then some name else duplicate? (name :: seen) rest

theorem duplicate?_eq_none_iff {seen names : List String} :
    duplicate? seen names = none ↔ names.Nodup ∧ ∀ name ∈ names, name ∉ seen := by
  induction names generalizing seen with
  | nil => simp [duplicate?]
  | cons name rest ih =>
    by_cases h : name ∈ seen
    · simp [duplicate?, h]
    · simp only [duplicate?, List.contains_eq_mem, h, decide_false, Bool.false_eq_true, if_false,
        ih, List.nodup_cons, List.mem_cons, not_or, forall_eq_or_imp, not_false_eq_true, true_and]
      constructor
      · rintro ⟨hd, hs⟩
        exact ⟨⟨fun hm => (hs name hm).1 rfl, hd⟩, fun n hn => (hs n hn).2⟩
      · rintro ⟨⟨hn, hd⟩, hs⟩
        exact ⟨hd, fun n hm => ⟨fun e => hn (e ▸ hm), hs n hm⟩⟩

/-- The methods that every constant answers. -/
def methods (cs : Constants) : List (String × Method) :=
  [("name", .constantName cs), ("toString", .constantName cs), ("value", .data),
    ("clean", .snapshot)]
  ++ cs.all.map fun c => ("is" ++ capitalize c.name, .isConstant cs c.name)

/-- What the type for these constants adds to the root. -/
def extension (name : Option String) (cs : Constants) : Extension :=
  { Extension.empty with
    name := some (name.getD "Enum")
    init := some (.constants cs)
    wrap := .custom (.constants cs)
    coerce := some (.constants cs)
    methods := methods cs }

/-- One instance for each constant. -/
def addInstances (t : TypeId) : List (String × Value) → Heap → List Constant × Heap
  | [], h => ([], h)
  | (name, v) :: rest, h =>
    let (m, h) := h.addModel t v
    let (cs, h) := addInstances t rest h
    (⟨name, m⟩ :: cs, h)

/-- Makes an enumeration: the instances first, under the type that is added next. -/
def define (spec : Spec) (s : Schema) (h : Heap) :
    Except SpecError (Enumeration × Schema × Heap) :=
  if spec.values.isEmpty then .error .noConstants
  else
    match duplicate? [] (spec.values.map Prod.fst) with
    | some name => .error (.sameName name)
    | none =>
      let (all, h) := addInstances s.nextModel spec.values h
      let cs : Constants := ⟨all, spec.upperCased⟩
      let (t, s) := s.addModel (.extended .root (s.type .root) (extension spec.name cs) [])
      .ok (⟨t, cs⟩, s, h)

/-! ### What it knows -/

variable (e : Enumeration)

/-- The constant of this name, also found by its name in upper case. -/
def named? (name : String) : Option ModelId := (e.constants.named? name).map (·.model)

/-- The constants in the order of their declaration. -/
def instances : List ModelId := e.constants.all.map (·.model)

/-- The names of the constants in the same order. -/
def names : List String := e.constants.all.map (·.name)

/-- What the enumeration is made of. -/
def inspect (s : Schema) : String :=
  Inspect.form "EnumType" [
    ("name", quoted (s.type e.type).name),
    ("constants", Inspect.list (e.names.map quoted))]

end Enumeration

end Overlay
