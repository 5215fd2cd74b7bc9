import Overlay.Number.Binary64

/-!
# JSON trees

A `Json` is a JSON text without its layout. The members of an object keep the order they were
written in, repeated keys included; `Json.canonical` sorts them and drops repetitions.
-/

namespace Overlay

/-- A JSON text without its layout. -/
inductive Json
  | null
  | bool (b : Bool)
  | number (x : Binary64)
  | string (s : String)
  | array (items : List Json)
  | object (members : List (String × Json))

namespace Json

instance : Inhabited Json := ⟨null⟩

/-- Puts a member at its place among members sorted by key; an equal key gets the new value. -/
def insertSorted (key : String) (value : Json) : List (String × Json) → List (String × Json)
  | [] => [(key, value)]
  | (k, v) :: rest =>
    if key = k then (key, value) :: rest
    else if key < k then (key, value) :: (k, v) :: rest
    else (k, v) :: insertSorted key value rest

mutual

/-- Every object sorted by its keys in code point order; of repeated keys the last stays. -/
def canonical : Json → Json
  | .array items => .array (canonicalItems items)
  | .object members => .object (canonicalMembers [] members)
  | other => other

/-- Each item in canonical form. -/
def canonicalItems : List Json → List Json
  | [] => []
  | item :: rest => canonical item :: canonicalItems rest

/-- The members entered one by one into sorted ones. -/
def canonicalMembers (sorted : List (String × Json)) : List (String × Json) → List (String × Json)
  | [] => sorted
  | (key, value) :: rest => canonicalMembers (insertSorted key (canonical value) sorted) rest

end

/-- The value of the first member with this key. -/
def get? (key : String) : Json → Option Json
  | .object members => members.lookup key
  | _ => none

end Json

end Overlay
