import Overlay.Heap.Basic
import Overlay.Number.Text
import Overlay.Text.Quoted
import Overlay.Time.Printer

/-!
# Values as text

`Heap.text` is what a reader is shown: elements joined by commas, a fixed text for every record,
and for a model the text of its data. `Heap.inspect` shows the kind of every value and the inside
of containers; it is told the names of types.
-/

namespace Overlay.Heap

variable (h : Heap)

/-- The text of values nested at most this deep. -/
def textWithin : Nat → Value → String
  | 0, _ => ""
  | depth + 1, v =>
    match v with
    | .undefined => "undefined"
    | .null => "null"
    | .bool b => if b then "true" else "false"
    | .number x => x.text
    | .string s => s
    | .date t => t.text
    | .array a => ",".intercalate ((h.items a).map (textWithin depth))
    | .record _ => "[object Object]"
    | .model m => textWithin depth (h.data m)

/-- The text shown to a reader. A value that does not contain itself is nested at most as deep as
there are cells. -/
def text (v : Value) : String := h.textWithin (h.size + 1) v

/-- The kind and contents of values nested at most this deep. -/
def inspectWithin (typeName : TypeId → String) : Nat → Value → String
  | 0, _ => ""
  | depth + 1, v =>
    let inside := inspectWithin typeName depth
    match v with
    | .undefined => "Undefined"
    | .null => "Null"
    | .bool b => "Bool(" ++ (if b then "true" else "false") ++ ")"
    | .number x => "Number(" ++ x.exactText ++ ")"
    | .string s => "String(" ++ quoted s ++ ")"
    | .date t => "Date(" ++ t.isoExact ++ ")"
    | .array a => "[" ++ ", ".intercalate ((h.items a).map inside) ++ "]"
    | .record r =>
      "\x7b" ++ ", ".intercalate ((h.fields r).entries.map fun (key, w) =>
        quoted key ++ ": " ++ inside w) ++ "\x7d"
    | .model m => typeName (h.type m) ++ "(" ++ inside (h.data m) ++ ")"

/-- The kind and contents of a value. -/
def inspect (typeName : TypeId → String) (v : Value) : String :=
  h.inspectWithin typeName (h.size + 1) v

end Overlay.Heap
