import Overlay.Session

/-!
# Literals

A `Literal` writes a value down. Building it makes fresh arrays and records, and takes what it
refers to by name from a session.
-/

namespace Overlay

/-- One step into a container. -/
inductive PathPart
  /-- A key of a record. -/
  | key (key : String)
  /-- An index of an array. -/
  | index (i : Nat)

/-- A value written down. -/
inductive Literal
  | undefined
  | null
  | bool (b : Bool)
  | number (x : Binary64)
  | string (s : String)
  | date (t : Instant)
  /-- A fresh array. -/
  | array (items : List Literal)
  /-- A fresh record. -/
  | record (entries : List (String × Literal))
  /-- What a JSON text denotes. -/
  | json (text : String)
  /-- The value of a name, shared. -/
  | named (name : String)
  /-- What is found inside the value of a name, shared. -/
  | path (name : String) (parts : List PathPart)
  /-- A value put so many times into an array, or into a record under a key. -/
  | nested (count : Nat) (key : Option String) (inner : Literal)

/-- Why a literal has no value. -/
inductive LiteralError
  /-- A name has no value. -/
  | noValue (name : String)
  /-- A text is not JSON. -/
  | malformed
  deriving DecidableEq, Repr

/-- What is found one step into a value; models are replaced by their data first. -/
def Heap.stepInto (h : Heap) (v : Value) : PathPart → Value
  | .key key =>
    match h.unwrap v with
    | .record r => (h.fields r).get key
    | _ => .undefined
  | .index i =>
    match h.unwrap v with
    | .array a => h.item a i
    | _ => .undefined

/-- What is found inside a value, whose model is replaced by its data. -/
def Heap.follow (h : Heap) (v : Value) (parts : List PathPart) : Value :=
  parts.foldl h.stepInto (h.unwrap v)

/-- A value put so many times into an array, or into a record under a key. -/
def Heap.nest (key : Option String) : Nat → Value → Heap → Value × Heap
  | 0, v, h => (v, h)
  | n + 1, v, h =>
    match key with
    | none => let (a, h) := h.addArray [v]; nest key n (.array a) h
    | some k => let (r, h) := h.recordOf [(k, v)]; nest key n (.record r) h

namespace Literal

mutual

/-- The value of a literal. -/
def build (valueOf? : String → Option Value) (h : Heap) :
    Literal → Except LiteralError (Value × Heap)
  | undefined => .ok (.undefined, h)
  | null => .ok (.null, h)
  | bool b => .ok (.bool b, h)
  | number x => .ok (.number x, h)
  | string s => .ok (.string s, h)
  | date t => .ok (.date t, h)
  | array items => do
    let (vs, h) ← buildItems valueOf? h items
    let (a, h) := h.addArray vs
    return (.array a, h)
  | record entries => do
    let (es, h) ← buildEntries valueOf? h entries
    let (r, h) := h.recordOf es
    return (.record r, h)
  | json text =>
    match Interchange.loadText text h with
    | .ok built => .ok built
    | .error _ => .error .malformed
  | named name =>
    match valueOf? name with
    | some v => .ok (v, h)
    | none => .error (.noValue name)
  | path name parts =>
    match valueOf? name with
    | some v => .ok (h.follow v parts, h)
    | none => .error (.noValue name)
  | nested count key inner => do
    let (v, h) ← build valueOf? h inner
    return h.nest key count v

/-- The values of each item. -/
def buildItems (valueOf? : String → Option Value) (h : Heap) :
    List Literal → Except LiteralError (List Value × Heap)
  | [] => .ok ([], h)
  | item :: rest => do
    let (v, h) ← build valueOf? h item
    let (vs, h) ← buildItems valueOf? h rest
    return (v :: vs, h)

/-- The values of each entry. -/
def buildEntries (valueOf? : String → Option Value) (h : Heap) :
    List (String × Literal) → Except LiteralError (List (String × Value) × Heap)
  | [] => .ok ([], h)
  | (key, item) :: rest => do
    let (v, h) ← build valueOf? h item
    let (es, h) ← buildEntries valueOf? h rest
    return ((key, v) :: es, h)

end

end Literal

/-- The value of a literal in a session. -/
def Session.build (s : Session) (l : Literal) : Except LiteralError (Value × Session) := do
  let (v, heap) ← l.build s.valueOf? s.heap
  return (v, { s with heap })

end Overlay
