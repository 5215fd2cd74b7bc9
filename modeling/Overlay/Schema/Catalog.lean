import Overlay.Schema.Derive

/-!
# Catalogs

A `Catalog` holds types under names chosen by an application, so that declarations can refer to
them by name (`Catalog.scope`). Registering a type lets go of another one of the same name.
-/

namespace Overlay

/-- Types under names, each name once. -/
structure Catalog where
  /-- The entries. -/
  entries : List (String × DataType)

namespace Catalog

/-- No types. -/
def empty : Catalog := ⟨[]⟩

variable (c : Catalog)

/-- Puts a type in place of any other of the same name. -/
def register (name : String) (t : DataType) : Catalog :=
  ⟨(name, t) :: c.entries.filter fun e => e.1 ≠ name⟩

/-- The type of this name. -/
def get? (name : String) : Option DataType := c.entries.lookup name

/-- Whether there is a type of this name. -/
def contains (name : String) : Bool := (c.get? name).isSome

/-- The number of types. -/
def size : Nat := c.entries.length

/-- The meaning of names in declarations. -/
def scope : Scope := c.get?

/-- Derives a type of this name from the root, where names in declarations refer to the catalog,
and registers it. -/
def define (s : Schema) (name : String) (ext : Extension) :
    Except Error (TypeId × Catalog × Schema) := do
  let (t, s) ← s.derive .root { ext with name := some name } c.scope
  return (t, c.register name (.model t), s)

end Catalog

end Overlay
