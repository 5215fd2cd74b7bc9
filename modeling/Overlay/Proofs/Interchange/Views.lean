import Overlay.Proofs.Heap.Nested
import Overlay.Proofs.Interchange.Trees
import Overlay.Proofs.Snapshot.Liveness

/-!
# The text of a value without the copies

Writing a value as JSON copies the models on the way.  What is written can be read off the heap as
it is, if it is known how each value is looked at: as it is, as data of a type, or the way a
snapshot takes the field of a record.

* `Interchange.View` : how a value is looked at;
* `Interchange.read` : what is read then;
* `Interchange.read_extends` : it does not depend on what else is in the heap.
-/

namespace Overlay.Interchange

open Heap Snapshot

/-! ### Views -/

/-- How a value is looked at. -/
inductive View
  /-- As it is. -/
  | bare
  /-- As data of this type. -/
  | under (t : TypeId)
  /-- The way a snapshot takes it, found by this property if by any. -/
  | taken (p : Option Property)

namespace View

/-- How the elements of an array are looked at. -/
def element : View → View
  | taken p => taken (p.bind (·.elementProperty?))
  | _ => bare

variable (s : Schema) (h : Heap) (roots : List Value)

/-- The type that says what is read of a record, if there is one. -/
def type? (view : View) (r : RecordId) : Option ModelType :=
  let known : Option TypeId :=
    match view with
    | bare => none
    | under t => some t
    | taken p => (known? h roots p (.record r)).map Prod.fst
  (known.map s.type).filter (·.isStructured)

/-- How the value under a key is looked at, if it is at all. -/
def inside? (type? : Option ModelType) (key : String) : Option View :=
  if isReserved key then none
  else
    match type? with
    | none => some bare
    | some type =>
      match type.property? key with
      | some p => if p.isPersisted then some (taken (some p)) else none
      | none => if type.allowsAdditional then some bare else none

/-- Whether nothing is left of a value. -/
def isVoid (view : View) (v : Value) : Bool :=
  match view, v with
  | taken _, .model m => (h.data m).isUndefined
  | _, v => v.isUndefined

end View

/-! ### What is read -/

section Read

variable (s : Schema) (h : Heap) (roots : List Value)

/-- What is read of the entries of a record. -/
def readMembers (read : View → Value → Json) (type? : Option ModelType) :
    List (String × Value) → List (String × Json) :=
  List.filterMap fun e =>
    ((View.inside? type? e.1).filter fun view => !view.isVoid h e.2).map fun view =>
      (e.1, read view e.2)

/-- What is read of a value nested at most this deep. -/
def readWithin : Nat → View → Value → Json
  | 0, _, _ => .null
  | n + 1, view, .array a => .array ((h.items a).map (readWithin n view.element))
  | n + 1, view, .record r =>
    .object (readMembers h (readWithin n) (view.type? s h roots r) (h.fields r).entries)
  | n + 1, _, .model m => readWithin n (.under (h.type m)) (h.data m)
  | _ + 1, _, v => v.json

/-- What is read of a value. -/
def read (view : View) (v : Value) : Json := readWithin s h roots (h.size + 1) view v

end Read

variable {s : Schema} {h h' : Heap} {roots roots' : List Value} {v : Value} {n k : Nat}

section Members

variable {read : View → Value → Json} {type? : Option ModelType} {key : String} {view : View}
  {es : List (String × Value)}

theorem readMembers_of_out (out : View.inside? type? key = none) :
    readMembers h read type? ((key, v) :: es) = readMembers h read type? es := by
  simp [readMembers, out]

theorem readMembers_of_void (inside : View.inside? type? key = some view)
    (void : view.isVoid h v = true) :
    readMembers h read type? ((key, v) :: es) = readMembers h read type? es := by
  simp [readMembers, inside, void]

theorem readMembers_of_inside (inside : View.inside? type? key = some view)
    (there : view.isVoid h v = false) :
    readMembers h read type? ((key, v) :: es) =
      (key, read view v) :: readMembers h read type? es := by
  simp [readMembers, inside, there]

end Members

theorem readMembers_congr {read read' : View → Value → Json} {type? : Option ModelType}
    {es : List (String × Value)}
    (void : ∀ e ∈ es, ∀ view : View, view.isVoid h e.2 = view.isVoid h' e.2)
    (each : ∀ e ∈ es, ∀ view, read view e.2 = read' view e.2) :
    readMembers h read type? es = readMembers h' read' type? es := by
  refine List.filterMap_congr fun e he => ?_
  simp only [each e he, void e he]

theorem readWithin_eq (nested : h.Nested k v) {n' : Nat} (le : k ≤ n) (le' : k ≤ n')
    (view : View) : readWithin s h roots n view v = readWithin s h roots n' view v := by
  induction k generalizing n n' v view with
  | zero => exact nested.elim
  | succ k ih =>
    obtain ⟨n, rfl⟩ : ∃ j, n = j + 1 := ⟨n - 1, by omega⟩
    obtain ⟨n', rfl⟩ : ∃ j, n' = j + 1 := ⟨n' - 1, by omega⟩
    have inside : ∀ w ∈ h.children v, ∀ view : View,
        readWithin s h roots n view w = readWithin s h roots n' view w := fun w hw view =>
      ih (nested w hw) (Nat.le_of_succ_le_succ le) (Nat.le_of_succ_le_succ le') view
    cases v with
    | array a => exact congrArg Json.array (List.map_congr_left fun w hw => inside w hw _)
    | record r =>
      exact congrArg Json.object (readMembers_congr (fun _ _ _ => rfl) fun e he =>
        inside e.2 (List.mem_map.2 ⟨e, he, rfl⟩))
    | model m => exact inside _ List.mem_cons_self _
    | _ => rfl

/-- So much fuel as there are cells is enough. -/
theorem read_eq (hc : h.Closed) (hv : h.Holds v) (nested : h.Nested n v) (le : n ≤ k)
    (view : View) : read s h roots view v = readWithin s h roots k view v := by
  rcases Nat.le_total n (h.size + 1) with hn | hn
  · exact readWithin_eq nested hn le view
  · exact readWithin_eq (nested.bounded hc hv) (Nat.le_refl _) (Nat.le_trans hn le) view

section Equations

variable (hc : h.Closed)
include hc

theorem read_array {a : ArrayId} (hv : h.Holds (.array a)) (nested : h.Nested n (.array a))
    (view : View) :
    read s h roots view (.array a) = .array ((h.items a).map (read s h roots view.element)) :=
  congrArg Json.array (List.map_congr_left fun w hw =>
    (read_eq hc (hc _ hv w hw) (nested.bounded hc hv w hw) (Nat.le_refl _) _).symm)

theorem read_record {r : RecordId} (hv : h.Holds (.record r)) (nested : h.Nested n (.record r))
    (view : View) :
    read s h roots view (.record r) =
      .object (readMembers h (read s h roots) (view.type? s h roots r) (h.fields r).entries) := by
  refine congrArg Json.object (readMembers_congr (fun _ _ _ => rfl) fun e he view => ?_)
  have hw : e.2 ∈ h.children (.record r) := List.mem_map.2 ⟨e, he, rfl⟩
  exact (read_eq hc (hc _ hv _ hw) (nested.bounded hc hv _ hw) (Nat.le_refl _) _).symm

theorem read_model {m : ModelId} (hv : h.Holds (.model m)) (nested : h.Nested n (.model m))
    (view : View) :
    read s h roots view (.model m) = read s h roots (.under (h.type m)) (h.data m) := by
  have hw : h.data m ∈ h.children (.model m) := List.mem_cons_self
  exact (read_eq hc (hc _ hv _ hw) (nested.bounded hc hv _ hw) (Nat.le_refl _) _).symm

end Equations

/-- What is read of a record depends on the type that says what is read. -/
theorem read_record_congr {view view' : View} {r : RecordId}
    (same : view.type? s h roots r = view'.type? s h roots r) :
    read s h roots view (.record r) = read s h roots view' (.record r) := by
  rw [read, read, readWithin, readWithin, same]

/-! ### What else is in the heap -/

theorem View.type?_extends (e : h.Extends h') (hc : h.Closed) (hr : ∀ v ∈ roots, h.Holds v)
    (view : View) {r : RecordId} (hv : h.Holds (.record r)) :
    view.type? s h' roots r = view.type? s h roots r := by
  cases view with
  | taken p => simp only [type?, known?_eq hc hr e hv]
  | _ => rfl

theorem View.isVoid_extends (e : h.Extends h') (view : View) (hv : h.Holds v) :
    view.isVoid h' v = view.isVoid h v := by
  cases v with
  | model m => cases view <;> simp only [isVoid, e.grows.data_eq hv]
  | _ => cases view <;> rfl

theorem readWithin_extends (e : h.Extends h') (hc : h.Closed) (hr : ∀ v ∈ roots, h.Holds v)
    (view : View) (hv : h.Holds v) :
    readWithin s h' roots n view v = readWithin s h roots n view v := by
  induction n generalizing view v with
  | zero => rfl
  | succ n ih =>
    cases v with
    | array a =>
      have items : h'.items a = h.items a := e.children_eq hv
      rw [readWithin, readWithin, items]
      exact congrArg Json.array (List.map_congr_left fun w hw => ih _ (hc _ hv w hw))
    | record r =>
      have fields : h'.fields r = h.fields r := by
        rw [fields, e.records.getElem?_eq hv, fields]
      rw [readWithin, readWithin, fields, view.type?_extends e hc hr hv]
      refine congrArg Json.object (readMembers_congr (fun e' he view => ?_) fun e' he view => ?_)
      all_goals have hw := hc _ hv e'.2 (List.mem_map.2 ⟨e', he, rfl⟩)
      · exact view.isVoid_extends e hw
      · exact ih view hw
    | model m =>
      rw [readWithin, readWithin, e.grows.type_eq hv, e.grows.data_eq hv]
      exact ih _ (hc _ hv _ List.mem_cons_self)
    | _ => rfl

/-- **What is read of a value does not depend on what else is in the heap.** -/
theorem read_extends (e : h.Extends h') (hc : h.Closed) (hr : ∀ v ∈ roots, h.Holds v)
    (hv : h.Holds v) (nested : h.Nested n v) (view : View) :
    read s h' roots view v = read s h roots view v := by
  have size : h.size ≤ h'.size := by
    have := e.grows.records
    have := e.grows.arrays
    have := e.grows.models.size_le
    unfold Heap.size
    omega
  have there := (nested.bounded hc hv).of_extends e hc hv
  rw [read, readWithin_eq there (Nat.succ_le_succ size) (Nat.le_refl _),
    readWithin_extends e hc hr view hv, read]

/-- What is read depends on what is held only through the models that are found from records. -/
theorem read_roots (same : ∀ r, h.wrapper? roots r = h.wrapper? roots' r) (view : View)
    (v : Value) : read s h roots view v = read s h roots' view v := by
  have types : ∀ (view : View) r, view.type? s h roots r = view.type? s h roots' r := by
    intro view r
    cases view with
    | taken p => simp only [View.type?, known?, same]
    | _ => rfl
  unfold read
  induction h.size + 1 generalizing view v with
  | zero => rfl
  | succ n ih =>
    cases v with
    | array a => exact congrArg Json.array (List.map_congr_left fun w _ => ih _ w)
    | record r =>
      rw [readWithin, readWithin, types]
      exact congrArg Json.object (readMembers_congr (fun _ _ _ => rfl) fun e _ view => ih view e.2)
    | model m => exact ih _ _
    | _ => rfl

end Overlay.Interchange
