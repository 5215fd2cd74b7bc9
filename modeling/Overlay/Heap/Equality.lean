import Overlay.Heap.Basic

/-!
# Structural equality

Two values are equal when they look the same: arrays element by element, records key by key in
any order. Models are equal only to themselves, and so is every container to itself without a
look inside. Numbers compare as numbers, so NaN differs from NaN.
-/

namespace Overlay.Heap

variable (h : Heap)

/-- Two lists agree place by place. -/
def pairwise (eq : Value → Value → Bool) : List Value → List Value → Bool
  | [], [] => true
  | v :: vs, w :: ws => eq v w && pairwise eq vs ws
  | _, _ => false

/-- Two sets of fields have as many keys, and each of the first is one of the second with an equal
value. -/
def sameFields (eq : Value → Value → Bool) (f g : Fields) : Bool :=
  f.size == g.size && f.entries.all fun (key, v) =>
    g.entries.any fun (key', w) => key' == key && eq w v

/-- Equality of values nested at most this deep. -/
def equalWithin : Nat → Value → Value → Bool
  | 0, _, _ => false
  | depth + 1, v, w =>
    match v, w with
    | .undefined, .undefined => true
    | .null, .null => true
    | .bool a, .bool b => a == b
    | .number x, .number y => x.equal y
    | .string s, .string t => s == t
    | .date s, .date t => s == t
    | .array a, .array b =>
      a == b || pairwise (equalWithin depth) (h.items a) (h.items b)
    | .record r, .record s =>
      r == s || sameFields (equalWithin depth) (h.fields r) (h.fields s)
    | .model m, .model n => m == n
    | _, _ => false

/-- Structural equality. A value that does not contain itself is nested at most as deep as there
are cells. -/
def equal (v w : Value) : Bool := h.equalWithin (h.size + 1) v w

/-- Whether two containers of one kind are the same one; none for all else. -/
def identical? : Value → Value → Option Bool
  | .array a, .array b => some (a == b)
  | .record r, .record s => some (r == s)
  | .model m, .model n => some (m == n)
  | _, _ => none

end Overlay.Heap
