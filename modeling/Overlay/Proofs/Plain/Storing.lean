import Overlay.Engine.Coerce
import Overlay.Proofs.Plain.Tree
import Overlay.Schema.Basic

/-!
# What becomes of a tree that is stored

Without hooks, what storing fresh plain data does can be told from the data alone.  A `Slot` is what
is declared for a value, and a `Verdict` is what storing comes to in collecting mode: the errors
that are recorded, and the stored form or the error that stops it.

* `Tree.stored` : the stored form of a tree in a slot;
* `Tree.admitted` : the fields of a record when its entries have gone through their properties;
* `Tree.constructed` : what a new model is around.

`Overlay.Proofs.Engine.Judging` proves that the engine does just this.
-/

namespace Overlay

/-- What is declared for a value: the name of the property, if there is one, its type and the types
of the elements. -/
structure Slot where
  /-- The name. -/
  name : Option String
  /-- The declared type. -/
  type : DataType
  /-- The types of the elements, of their elements, and so on. -/
  elements : List DataType

/-- What a property declares for its value. -/
def Property.slot (p : Property) : Slot := ⟨some p.name, p.type, p.elements⟩

namespace Slot

/-- What is declared for elements. -/
def element? (q : Slot) : Option Slot :=
  match q.elements with
  | [] => none
  | type :: elements => some ⟨q.name, type, elements⟩

/-- What the elements of an array in the slot go through. -/
def items? (q : Slot) : Option Slot :=
  match q.type with
  | .builtin .array => q.element?
  | _ => none

/-- The type whose properties the fields of a record in the slot go through. -/
def form? (s : Schema) (q : Slot) : Option TypeId :=
  match q.type with
  | .model t => if (s.type t).wraps && (s.type t).isStructured then some t else none
  | _ => none

/-- The type by whose properties the fields of a record in the slot are known. -/
def shape? (s : Schema) (q : Slot) : Option TypeId :=
  match q.type with
  | .model t => if (s.type t).isStructured then some t else none
  | _ => none

theorem element?_of_items? {q e : Slot} (h : q.items? = some e) : q.element? = some e := by
  unfold items? at h
  split at h
  · exact h
  · cases h

theorem declares_of_items? {q e : Slot} (h : q.items? = some e) :
    q.type = .builtin .array ∧ q.elements = e.type :: e.elements := by
  have element := element?_of_items? h
  unfold items? at h
  unfold element? at element
  split at h
  · split at element
    · cases element
    · cases element
      exact ⟨‹_›, ‹_›⟩
  · cases h

theorem type_of_form? {s : Schema} {q : Slot} {t : TypeId} (h : q.form? s = some t) :
    q.type = .model t := by
  unfold form? at h
  split at h
  · split at h <;> cases h
    assumption
  · cases h

theorem shape?_of_form? {s : Schema} {q : Slot} {t : TypeId} (h : q.form? s = some t) :
    q.shape? s = some t := by
  unfold form? at h
  unfold shape?
  split at h
  · split at h
    · rename_i both
      rw [if_pos (Bool.and_eq_true_iff.1 both).2]
      exact h
    · cases h
  · cases h

end Slot

/-- No part of the tree goes through a slot of its own. -/
def Tree.Still (s : Schema) : Option Slot → Tree → Prop
  | some q, .array _ => q.items? = none
  | some q, .record _ => q.form? s = none
  | _, _ => True

theorem Property.slot_element? (p : Property) :
    p.slot.element? = p.elementProperty?.map slot := by
  unfold Slot.element? Property.elementProperty? slot
  dsimp only
  cases p.elements <;> rfl

theorem Property.bind_element? (p : Option Property) :
    (p.map slot).bind Slot.element? = (p.bind (·.elementProperty?)).map slot := by
  cases p with
  | none => rfl
  | some p => exact p.slot_element?

/-- The slot has the name of the property at hand, and its elements. -/
structure Slot.AtHand (q : Slot) (o : Option Property) : Prop where
  /-- The name is that of the property. -/
  name : q.name = o.map Property.name
  /-- The elements are those of the property. -/
  element : q.element? = (o.bind (·.elementProperty?)).map Property.slot

theorem Property.slot_atHand (p : Property) : p.slot.AtHand (some p) := ⟨rfl, p.slot_element?⟩

/-- The slot for a value of a type without a property at hand. -/
def Slot.alone (t : DataType) : Slot := ⟨none, t, []⟩

theorem Slot.alone_atHand (t : DataType) : (alone t).AtHand none := ⟨rfl, rfl⟩

/-- What is declared for the value under a key; nothing is for a reserved one. -/
def ModelType.slot? (t : ModelType) (key : String) : Option Slot :=
  if isReserved key then none else (t.property? key).map Property.slot

theorem ModelType.slot?_of_data {t : ModelType} {key : String} (hk : isReserved key = false) :
    t.slot? key = (t.property? key).map Property.slot := by
  unfold slot?
  rw [hk]
  rfl

/-- What an operation comes to in collecting mode. -/
structure Verdict (α : Type) where
  /-- The errors that are recorded, in order. -/
  signalled : List Error
  /-- The result, or the error that stops it. -/
  result : Except Error α

namespace Verdict

variable {α β γ : Type}

instance : Monad Verdict where
  pure a := ⟨[], .ok a⟩
  bind v next :=
    match v.result with
    | .ok a => ⟨v.signalled ++ (next a).signalled, (next a).result⟩
    | .error e => ⟨v.signalled, .error e⟩

/-- Stops with an error. -/
def raise (e : Error) : Verdict α := ⟨[], .error e⟩

/-- Records an error and gives the undefined value if it can be recorded, and else stops. -/
def signal (e : Error) : Verdict Tree :=
  if e.isRecordable then ⟨[e], .ok (.leaf .undefined)⟩ else raise e

/-- Signals that a tree is invalid for the property of this name. -/
def invalid (name : Option String) (x : Tree) : Verdict Tree :=
  signal (.invalidValue name x.text)

theorem bind_of_ok {v : Verdict α} {a : α} (h : v.result = .ok a) (next : α → Verdict β) :
    v >>= next = ⟨v.signalled ++ (next a).signalled, (next a).result⟩ := by
  show (match v.result with | .ok a => _ | .error e => _) = _
  rw [h]

theorem bind_of_error {v : Verdict α} {e : Error} (h : v.result = .error e)
    (next : α → Verdict β) : v >>= next = ⟨v.signalled, .error e⟩ := by
  show (match v.result with | .ok a => _ | .error e => _) = _
  rw [h]

@[simp] theorem pure_signalled (a : α) : (pure a : Verdict α).signalled = [] := rfl

instance : LawfulMonad Verdict :=
  LawfulMonad.mk' Verdict
    (by
      rintro α ⟨es, e | a⟩
      · rfl
      · show (⟨es ++ [], .ok a⟩ : Verdict α) = _
        rw [List.append_nil])
    (fun _ _ => rfl)
    (by
      rintro α β γ ⟨es, e | a⟩ next last
      · rfl
      · rw [bind_of_ok (v := ⟨es, .ok a⟩) rfl, bind_of_ok (v := ⟨es, .ok a⟩) rfl]
        rcases next a with ⟨es', e | b⟩
        · rfl
        · rw [bind_of_ok (v := ⟨es', .ok b⟩) rfl, bind_of_ok (v := ⟨es ++ es', .ok b⟩) rfl]
          simp only [List.append_assoc])

end Verdict

/-- The fields once the tree under a key has its stored form: if that has parts, it is seen under
the key, unless something else was written there. -/
def Entries.reveal (written : List String) (key : String) (y : Tree) (fields : Entries) : Entries :=
  if y.isLeaf || key ∈ written then fields else Entries.replace key y fields

@[simp] theorem Entries.keys_reveal {written : List String} {key : String} {y : Tree}
    {fields : Entries} : (reveal written key y fields).keys = fields.keys := by
  unfold reveal
  split
  · rfl
  · exact keys_replace

theorem Entries.get_reveal {written : List String} {key k : String} {y : Tree} {fields : Entries}
    (h : y.isLeaf = true ∨ key ∈ written ∨ k ≠ key) :
    (reveal written key y fields).get k = fields.get k := by
  unfold reveal
  split
  · rfl
  · rename_i hn
    simp only [Bool.or_eq_true, decide_eq_true_eq, not_or] at hn
    rw [get_replace, if_neg fun e => (h.resolve_left hn.1).resolve_left hn.2 e.1]

namespace Tree

/-- The stored form under a built-in type whose values have no parts. -/
def scalar (strict : Bool) (name : Option String) (b : Builtin) (x : Tree) : Verdict Tree :=
  match x with
  | leaf v =>
    if v.isNothing || b.accepts v then pure x
    else if strict then .invalid name x
    else
      match b.converted? v with
      | some w => pure (leaf w)
      | none => .invalid name x
  | _ => .invalid name x

/-- The stored form as a number without a fraction. -/
def integer (strict : Bool) (name : Option String) (x : Tree) : Verdict Tree := do
  let y ← scalar strict name .number x
  match y with
  | leaf (.number n) => if n.isIntegral then pure y else .invalid name x
  | _ => pure y

/-- The stored form under a model type, if no part of the tree goes through a property. -/
def bare (s : Schema) (t : TypeId) (name : Option String) (x : Tree) : Verdict Tree :=
  if x.isNothing || !(s.type t).wraps then pure x
  else if x.isArray then .raise .wrappedArray
  else if (s.type t).isStructured then .invalid name x
  else if (s.type t).allowsInstances then pure x
  else .raise (.noInstances (s.type t).name)

/-- The stored form of a tree whose parts, if it has any, stay as they are. -/
def idle (s : Schema) (strict : Bool) (q : Slot) (x : Tree) : Verdict Tree :=
  match q.type with
  | .builtin .object => pure x
  | .builtin .array => if x.isNothing || x.isArray then pure x else .invalid q.name x
  | .builtin .integer => integer strict q.name x
  | .builtin b => scalar strict q.name b x
  | .model t => bare s t q.name x
  | .adapter _ => pure x

mutual
/-- The stored form of a tree in a slot. -/
def stored (s : Schema) (strict : Bool) (q : Slot) : Tree → Verdict Tree
  | leaf v => idle s strict q (leaf v)
  | array xs =>
    match q.items? with
    | some e => do return array (← storedItems s strict e xs)
    | none => idle s strict q (array xs)
  | record es =>
    match q.form? s with
    | some t =>
      if (s.type t).allowsInstances then do return record (← admitted s strict t es [] es)
      else .raise (.noInstances (s.type t).name)
    | none => idle s strict q (record es)
/-- The stored forms of elements. -/
def storedItems (s : Schema) (strict : Bool) (e : Slot) : List Tree → Verdict (List Tree)
  | [] => return []
  | x :: xs => do
    let y ← stored s strict e x
    return y :: (← storedItems s strict e xs)
/-- The fields of a record of the type when these entries have gone through their properties, given
the keys that were written before.  What is stored may be the tree that was handed in, which then
shows its stored form under its own key as well, unless something else was written there. -/
def admitted (s : Schema) (strict : Bool) (t : TypeId) :
    Entries → List String → Entries → Verdict Entries
  | [], _, fields => return fields
  | (key, x) :: rest, written, fields =>
    if isReserved key then admitted s strict t rest written fields
    else
      match (s.type t).property? key with
      | some p => do
        let y ← stored s strict p.slot x
        admitted s strict t rest (p.storageKey :: written)
          (Entries.put p.storageKey y (Entries.reveal written key y fields))
      | none =>
        if (s.type t).allowsAdditional then admitted s strict t rest written fields
        else do
          let _ ← Verdict.signal (.unrecognizedKey key)
          admitted s strict t rest written fields
end

theorem stored_of_still {s : Schema} {q : Slot} {x : Tree} (still : x.Still s (some q))
    (strict : Bool) : stored s strict q x = idle s strict q x := by
  cases x with
  | leaf v => rw [stored]
  | array xs =>
    have none : q.items? = none := still
    rw [stored, none]
  | record es =>
    have none : q.form? s = none := still
    rw [stored, none]

/-- What a tree shows once its stored form is known: if that has parts, it is the same value. -/
def seen (x y : Tree) : Tree := if y.isLeaf then x else y

/-- What a new model of a type is around, made of a tree that is undefined if there are no data. -/
def constructed (s : Schema) (strict : Bool) (name : Option String) (t : TypeId) (x : Tree) :
    Verdict Tree :=
  if !(s.type t).allowsInstances then .raise (.noInstances (s.type t).name)
  else if (s.type t).isStructured then
    match x with
    | record es => do return record (← admitted s strict t es [] es)
    | x =>
      if x.isNothing then return record []
      else do
        let _ ← Verdict.invalid name x
        return record []
  else return x

end Tree

end Overlay
