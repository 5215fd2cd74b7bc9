import Overlay.Json.Printer
import Overlay.Json.Reader
import Overlay.Snapshot
import Overlay.Time.Printer

/-!
# Values as JSON

* `Interchange.load` builds fresh records and arrays from a JSON tree, and `Interchange.loadText`
  from a text.
* `Interchange.treeOf` is the tree of a value, and `Interchange.textOf` its text. Models stand for
  their snapshots, reserved keys are left out, and what JSON cannot express is null. Records show
  all other keys; only models know which of them persist.
-/

namespace Overlay.Interchange

/-! ### From JSON -/

mutual

/-- A fresh value of a JSON tree. -/
def loadTree : Json → StateM Heap Value
  | .null => pure .null
  | .bool b => pure (.bool b)
  | .number x => pure (.number x)
  | .string s => pure (.string s)
  | .array items => do
    let items ← loadItems items
    modifyGet fun heap => let (a, heap) := heap.addArray items; (.array a, heap)
  | .object members => do
    let entries ← loadMembers members
    modifyGet fun heap => let (r, heap) := heap.recordOf entries; (.record r, heap)

/-- Fresh values of each item. -/
def loadItems : List Json → StateM Heap (List Value)
  | [] => pure []
  | item :: rest => do
    let v ← loadTree item
    return v :: (← loadItems rest)

/-- Fresh values of each member. -/
def loadMembers : List (String × Json) → StateM Heap (List (String × Value))
  | [] => pure []
  | (key, value) :: rest => do
    let v ← loadTree value
    return (key, v) :: (← loadMembers rest)

end

/-- A fresh value of a JSON tree; the keys of records are sorted. -/
def load (j : Json) (heap : Heap) : Value × Heap := (loadTree j.canonical).run heap

/-- Texts nest at most 127 containers. -/
def rules : Json.Rules := ⟨some 127, false⟩

/-- A fresh value of a JSON text. -/
def loadText (text : String) (heap : Heap) : Except Error (Value × Heap) :=
  match Json.parse? rules text with
  | some j => .ok (load j heap)
  | none => .error .malformedJson

/-! ### To JSON -/

/-- The tree of a number: zero loses its sign, and what is not finite is null. -/
def numberTree (x : Binary64) : Json :=
  if x.isZero then .number .zero else if x.isFinite then .number x else .null

/-- Trees of each value. -/
def treeItems (tree : Value → Snapshot.Action Json) : List Value → Snapshot.Action (List Json)
  | [] => pure []
  | v :: rest => do
    let j ← tree v
    return j :: (← treeItems tree rest)

/-- The members of a record's entries; reserved keys are left out. -/
def treeMembers (tree : Value → Snapshot.Action Json) :
    List (String × Value) → Snapshot.Action (List (String × Json))
  | [] => pure []
  | (key, v) :: rest => do
    if isReserved key then treeMembers tree rest
    else
      let j ← tree v
      return (key, j) :: (← treeMembers tree rest)

/-- The tree of a value nested at most this deep. -/
def treeWithin : Nat → Value → Snapshot.Action Json
  | 0, _ => pure .null
  | depth + 1, v => do
    match v with
    | .undefined => return .null
    | .null => return .null
    | .bool b => return .bool b
    | .number x => return numberTree x
    | .string s => return .string s
    | .date t => return .string t.isoMillis
    | .array a => return .array (← treeItems (treeWithin depth) ((← get).heap.items a))
    | .record r =>
      return .object (← treeMembers (treeWithin depth) ((← get).heap.fields r).entries)
    | .model m =>
      let deep := (← get).heap.size
      let copy ← Snapshot.modelOf (fun p => Snapshot.within deep (some p)) m
      treeWithin depth copy

/-- The tree of a value. A value that does not contain itself is nested at most as deep as there
are cells. -/
def treeOf (schema : Schema) (roots : List Value) (heap : Heap) (v : Value) : Json :=
  ((treeWithin (heap.size + 1) v).run ⟨schema, roots⟩ |>.run ⟨heap, none⟩).1

/-- The JSON text of a value, on one line or indented. -/
def textOf (schema : Schema) (roots : List Value) (heap : Heap) (pretty : Bool) (v : Value) :
    String :=
  let j := treeOf schema roots heap v
  if pretty then j.pretty else j.compact

end Overlay.Interchange
