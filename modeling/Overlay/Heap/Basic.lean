import Overlay.Heap.Fields

/-!
# The heap

A `Heap` holds the shared data: records, arrays and models. Cells are only ever added, and an
identifier is the place of its cell. A record also remembers the model attached to it; whether
that model is still there to be found is the subject of `Overlay.Heap.Reach`.

A cell that does not exist reads as an empty record, an empty array, or an instance of the root
around the undefined value.
-/

namespace Overlay

/-- A record: its fields, and the model that was last attached to it. -/
structure RecordCell where
  /-- The fields. -/
  fields : Fields
  /-- The model attached to the record. -/
  wrapper : Option ModelId
  deriving DecidableEq

/-- A model: an instance of a model type around a datum. -/
structure ModelCell where
  /-- The type it is an instance of. -/
  type : TypeId
  /-- The datum it wraps. -/
  data : Value
  deriving DecidableEq

/-- The shared data. -/
structure Heap where
  /-- The records. -/
  records : Array RecordCell
  /-- The elements of the arrays. -/
  arrays : Array (List Value)
  /-- The models. -/
  models : Array ModelCell
  deriving DecidableEq

namespace Heap

/-- Nothing at all. -/
def empty : Heap := ⟨#[], #[], #[]⟩

instance : Inhabited Heap := ⟨empty⟩

variable (h : Heap)

/-- How many cells there are. -/
def size : Nat := h.records.size + h.arrays.size + h.models.size

/-! ### Reading -/

/-- The fields of a record. -/
def fields (r : RecordId) : Fields :=
  match h.records[r.index]? with
  | some cell => cell.fields
  | none => .empty

/-- The model attached to a record, there or not. -/
def attached? (r : RecordId) : Option ModelId := h.records[r.index]?.bind (·.wrapper)

/-- The elements of an array. -/
def items (a : ArrayId) : List Value := h.arrays[a.index]?.getD []

/-- The element at an index, undefined beyond the end. -/
def item (a : ArrayId) (i : Nat) : Value := (h.items a).getD i .undefined

/-- The type of a model. -/
def type (m : ModelId) : TypeId :=
  match h.models[m.index]? with
  | some cell => cell.type
  | none => .root

/-- The datum that a model wraps. -/
def data (m : ModelId) : Value :=
  match h.models[m.index]? with
  | some cell => cell.data
  | none => .undefined

/-- The record that a model wraps, if it wraps one. -/
def record? (m : ModelId) : Option RecordId := (h.data m).record?

/-- A model's datum; any other value is itself. -/
def unwrap : Value → Value
  | .model m => h.data m
  | v => v

/-! ### Adding cells -/

/-- A fresh record without a model. -/
def addRecord (fields : Fields) : RecordId × Heap :=
  (⟨h.records.size⟩, { h with records := h.records.push ⟨fields, none⟩ })

/-- A fresh array. -/
def addArray (items : List Value) : ArrayId × Heap :=
  (⟨h.arrays.size⟩, { h with arrays := h.arrays.push items })

/-- A fresh model. -/
def addModel (type : TypeId) (data : Value) : ModelId × Heap :=
  (⟨h.models.size⟩, { h with models := h.models.push ⟨type, data⟩ })

/-! ### Changing cells -/

/-- Stores a value under a key of a record. -/
def insert (r : RecordId) (key : String) (value : Value) : Heap :=
  { h with records := h.records.modify r.index fun cell =>
      { cell with fields := cell.fields.insert key value } }

/-- Removes a key of a record. -/
def remove (r : RecordId) (key : String) : Heap :=
  { h with records := h.records.modify r.index fun cell =>
      { cell with fields := cell.fields.remove key } }

/-- Attaches a model to a record, or detaches whatever was attached. -/
def setWrapper (r : RecordId) (wrapper : Option ModelId) : Heap :=
  { h with records := h.records.modify r.index fun cell => { cell with wrapper } }

/-- Replaces the element at an index; beyond the end nothing happens. -/
def setItem (a : ArrayId) (i : Nat) (value : Value) : Heap :=
  { h with arrays := h.arrays.modify a.index fun items => items.set i value }

/-- Adds an element at the end of an array. -/
def pushItem (a : ArrayId) (value : Value) : Heap :=
  { h with arrays := h.arrays.modify a.index fun items => items ++ [value] }

/-- The fields of a record that these entries leave, stored one after the other. -/
def recordOf (entries : List (String × Value)) : RecordId × Heap := h.addRecord (.ofList entries)

end Heap

end Overlay
