import Overlay.Heap.Basic

/-!
# What is still held

A record does not keep the model attached to it. That model can be found from the record only
while something else holds it: it is reachable from the values in use through fields, elements
and the data of models. `Heap.wrapper?` is the attached model under this condition.

* `Heap.Reachable` is reachability as a relation;
* `Heap.reach` collects the reachable containers, one after the other.
-/

namespace Overlay.Heap

variable (h : Heap)

/-- The values that a value holds directly. -/
def children : Value → List Value
  | .array a => h.items a
  | .record r => (h.fields r).values
  | .model m => [h.data m]
  | _ => []

/-- The value is held by one of the roots, directly or through others. -/
inductive Reachable (roots : List Value) : Value → Prop
  | root {v : Value} (mem : v ∈ roots) : Reachable roots v
  | child {v w : Value} (held : Reachable roots v) (mem : w ∈ h.children v) : Reachable roots w

/-- How many references the cells of the heap hold. -/
def edges : Nat :=
  (h.records.toList.flatMap fun cell => cell.fields.values).length
    + (h.arrays.toList.flatMap id).length + h.models.size

/-- Visits pending values depth first. The fuel counts the values that may still be taken from
those pending: each one once for the reference that led to it. -/
def visit : Nat → List Value → List Value → List Value
  | 0, seen, _ => seen
  | _, seen, [] => seen
  | fuel + 1, seen, v :: pending =>
    if (h.children v).isEmpty || seen.contains v then visit fuel seen pending
    else visit fuel (v :: seen) (h.children v ++ pending)

/-- The models, and the records and arrays that are not empty, that the roots hold. -/
def reach (roots : List Value) : List Value :=
  h.visit (roots.length + h.edges) [] roots

/-- The model attached to a record, if it is among the values that are held. -/
def attachedIn? (held : List Value) (r : RecordId) : Option ModelId :=
  (h.attached? r).filter fun m => held.contains (.model m)

/-- The model attached to a record, if the roots hold it. -/
def wrapper? (roots : List Value) (r : RecordId) : Option ModelId :=
  h.attachedIn? (h.reach roots) r

end Overlay.Heap
