import Mathlib.Logic.Relation
import Overlay.Proofs.Heap.Cells
import Overlay.Proofs.Heap.Reach
import Overlay.Schema.Basic

/-!
# Steps of the heap

Whatever an operation does to the heap, it does in steps of seven kinds: it changes a field, an
element or the model attached to a record, or it adds a cell.  It attaches a model only to the
record that the model wraps; and what it writes is there already, provided that this holds of what
it was given.

* `Heap.Step` : one such step;
* `Heap.Steps.grows` : the models that were there are the same models after any steps;
* `Heap.Steps.closed` : steps leave no dangling reference.
-/

namespace Overlay

namespace Fields

variable {f : Fields} {key : String} {v w : Value}

theorem mem_values_insert (hw : w ∈ (f.insert key v).values) : w = v ∨ w ∈ f.values := by
  obtain ⟨e, he, rfl⟩ := List.mem_map.1 hw
  unfold insert at he
  split at he
  · exact Or.inr (List.mem_map.2 ⟨e, (List.mem_filter.1 he).1, rfl⟩)
  · rcases mem_putEntry he with he | rfl
    · exact Or.inr (List.mem_map.2 ⟨e, he, rfl⟩)
    · exact Or.inl rfl

theorem mem_values_ofList {es : List (String × Value)} (hw : w ∈ (ofList es).values) :
    w ∈ es.map Prod.snd := by
  have step : ∀ (es : List (String × Value)) (f : Fields),
      w ∈ (es.foldl (fun f e => f.insert e.1 e.2) f).values →
        w ∈ f.values ∨ w ∈ es.map Prod.snd := by
    intro es
    induction es with
    | nil => exact fun f hw => Or.inl hw
    | cons e es ih =>
      intro f hw
      rcases ih _ hw with hw | hw
      · rcases mem_values_insert hw with rfl | hw
        · exact Or.inr List.mem_cons_self
        · exact Or.inl hw
      · exact Or.inr (List.mem_cons_of_mem _ hw)
  exact (step es empty hw).resolve_left List.not_mem_nil

end Fields

namespace Heap

/-- A step of the heap under a schema.  If it is `safe`, what it writes is there. -/
inductive Step (s : Schema) (safe : Prop) : Heap → Heap → Prop
  /-- A value is stored in a field. -/
  | insert {h : Heap} (r : RecordId) (key : String) {v : Value} (hv : safe → h.Holds v) :
      Step s safe h (h.insert r key v)
  /-- A value replaces an element. -/
  | setItem {h : Heap} (a : ArrayId) (i : Nat) {v : Value} (hv : safe → h.Holds v) :
      Step s safe h (h.setItem a i v)
  /-- A model of a type with properties is attached to its record. -/
  | attach {h : Heap} {r : RecordId} {m : ModelId} (hm : h.Holds (.model m))
      (data : h.data m = .record r) (structured : (s.type (h.type m)).isStructured = true) :
      Step s safe h (h.setWrapper r (some m))
  /-- A record lets go of its model. -/
  | detach {h : Heap} (r : RecordId) : Step s safe h (h.setWrapper r none)
  /-- A record is added. -/
  | addRecord {h : Heap} {f : Fields} (hf : ∀ v ∈ f.values, safe → h.Holds v) :
      Step s safe h (h.addRecord f).2
  /-- An array is added. -/
  | addArray {h : Heap} {vs : List Value} (hvs : ∀ v ∈ vs, safe → h.Holds v) :
      Step s safe h (h.addArray vs).2
  /-- A model is added; one of a type with properties wraps a record. -/
  | addModel {h : Heap} (t : TypeId) {v : Value} (hv : safe → h.Holds v)
      (shape : (s.type t).isStructured = true → v.isRecord = true) :
      Step s safe h (h.addModel t v).2

/-- A step of the heap that writes values of one kind only, and changes cells of one kind only. -/
inductive Move (s : Schema) (P C : Value → Prop) : Heap → Heap → Prop
  /-- A value is stored in a field. -/
  | insert {h : Heap} {r : RecordId} (hr : C (.record r)) (key : String) {v : Value} (hv : P v) :
      Move s P C h (h.insert r key v)
  /-- A value replaces an element. -/
  | setItem {h : Heap} {a : ArrayId} (ha : C (.array a)) (i : Nat) {v : Value} (hv : P v) :
      Move s P C h (h.setItem a i v)
  /-- A model of a type with properties is attached to its record. -/
  | attach {h : Heap} {r : RecordId} {m : ModelId} (hr : C (.record r)) (hm : h.Holds (.model m))
      (data : h.data m = .record r) (structured : (s.type (h.type m)).isStructured = true) :
      Move s P C h (h.setWrapper r (some m))
  /-- A record lets go of its model. -/
  | detach {h : Heap} {r : RecordId} (hr : C (.record r)) : Move s P C h (h.setWrapper r none)
  /-- A record is added. -/
  | addRecord {h : Heap} {f : Fields} (hf : ∀ v ∈ f.values, P v) : Move s P C h (h.addRecord f).2
  /-- An array is added. -/
  | addArray {h : Heap} {vs : List Value} (hvs : ∀ v ∈ vs, P v) : Move s P C h (h.addArray vs).2
  /-- A model is added; one of a type with properties wraps a record. -/
  | addModel {h : Heap} (t : TypeId) {v : Value} (hv : P v)
      (shape : (s.type t).isStructured = true → v.isRecord = true) :
      Move s P C h (h.addModel t v).2

/-- One step after another. -/
abbrev Steps (s : Schema) (safe : Prop) : Heap → Heap → Prop :=
  Relation.ReflTransGen (Step s safe)

variable {s : Schema} {safe : Prop} {h h' : Heap}

theorem Step.grows (step : Step s safe h h') : h.Grows h' := by
  cases step with
  | insert r key => exact h.grows_insert r key _
  | setItem a i => exact h.grows_setItem a i _
  | attach => exact h.grows_setWrapper _ _
  | detach r => exact h.grows_setWrapper r none
  | addRecord => exact (h.extends_addRecord _).grows
  | addArray => exact (h.extends_addArray _).grows
  | addModel t => exact (h.extends_addModel t _).grows

theorem Steps.grows (steps : Steps s safe h h') : h.Grows h' := by
  induction steps with
  | refl => exact .refl h
  | tail _ step ih => exact ih.trans step.grows

theorem children_setWrapper (r : RecordId) (wrapper : Option ModelId) {v w : Value}
    (hv : (h.setWrapper r wrapper).Holds v) (hw : w ∈ (h.setWrapper r wrapper).children v) :
    h.Holds v ∧ w ∈ h.children v := by
  cases v with
  | record r' =>
    rw [Heap.children, fields_setWrapper] at hw
    exact ⟨by simpa [Holds, setWrapper] using hv, hw⟩
  | _ => exact ⟨hv, hw⟩

/-- What a cell holds after the step was written by it, or the cell held it before. -/
theorem Move.children {P C : Value → Prop} (move : Move s P C h h')
    {v w : Value} (hv : h'.Holds v) (hw : w ∈ h'.children v) :
    P w ∨ (h.Holds v ∧ w ∈ h.children v) := by
  cases move with
  | @insert r hr key u hu =>
    cases v with
    | record r' =>
      have hr' : h.Holds (.record r') := by simpa [Holds, Heap.insert] using hv
      simp only [Heap.children, fields_insert] at hw
      split at hw
      · rcases Fields.mem_values_insert hw with rfl | hw
        · exact Or.inl hu
        · exact Or.inr ⟨hr', hw⟩
      · exact Or.inr ⟨hr', hw⟩
    | _ => exact Or.inr ⟨hv, hw⟩
  | @setItem a ha i u hu =>
    cases v with
    | array a' =>
      have ha' : h.Holds (.array a') := by simpa [Holds, Heap.setItem] using hv
      simp only [Heap.children, items_setItem] at hw
      split at hw
      · rcases List.mem_or_eq_of_mem_set hw with hw | rfl
        · exact Or.inr ⟨ha', hw⟩
        · exact Or.inl hu
      · exact Or.inr ⟨ha', hw⟩
    | _ => exact Or.inr ⟨hv, hw⟩
  | @attach r m hr hm data structured => exact Or.inr (children_setWrapper r (some m) hv hw)
  | @detach r hr => exact Or.inr (children_setWrapper r none hv hw)
  | @addRecord f hf =>
    cases v with
    | record r =>
      simp only [Heap.children, fields_addRecord] at hw
      split at hw
      · exact Or.inl (hf w hw)
      · rename_i hr
        simp only [Holds, Heap.addRecord, Array.size_push] at hv
        exact Or.inr ⟨show r.index < h.records.size by omega, hw⟩
    | _ => exact Or.inr ⟨hv, hw⟩
  | @addArray vs hvs =>
    cases v with
    | array a =>
      simp only [Heap.children, items_addArray] at hw
      split at hw
      · exact Or.inl (hvs w hw)
      · rename_i ha
        simp only [Holds, Heap.addArray, Array.size_push] at hv
        exact Or.inr ⟨show a.index < h.arrays.size by omega, hw⟩
    | _ => exact Or.inr ⟨hv, hw⟩
  | @addModel t u hu _ =>
    cases v with
    | model m =>
      simp only [Heap.children, data_addModel_eq, List.mem_singleton] at hw
      split at hw
      · rw [hw]
        exact Or.inl hu
      · rename_i hm
        simp only [Holds, Heap.addModel, Array.size_push] at hv
        exact Or.inr ⟨show m.index < h.models.size by omega, List.mem_singleton.2 hw⟩
    | _ => exact Or.inr ⟨hv, hw⟩

theorem Step.move (step : Step s safe h h') (hs : safe) : Move s h.Holds (fun _ => True) h h' := by
  cases step with
  | insert r key hv => exact .insert trivial key (hv hs)
  | setItem a i hv => exact .setItem trivial i (hv hs)
  | attach hm data structured => exact .attach trivial hm data structured
  | detach r => exact .detach trivial
  | addRecord hf => exact .addRecord fun v hv => hf v hv hs
  | addArray hvs => exact .addArray fun v hv => hvs v hv hs
  | addModel t hv shape => exact .addModel t (hv hs) shape

theorem Move.step {P C : Value → Prop} (move : Move s P C h h')
    (there : ∀ v, P v → safe → h.Holds v) : Step s safe h h' := by
  cases move with
  | insert hr key hv => exact .insert _ key (there _ hv)
  | setItem ha i hv => exact .setItem _ i (there _ hv)
  | attach hr hm data structured => exact .attach hm data structured
  | detach hr => exact .detach _
  | addRecord hf => exact .addRecord fun v hv => there v (hf v hv)
  | addArray hvs => exact .addArray fun v hv => there v (hvs v hv)
  | addModel t hv shape => exact .addModel t (there _ hv) shape

theorem Move.grows {P C : Value → Prop} (move : Move s P C h h') :
    h.Grows h' :=
  (move.step fun _ _ => False.elim : Step s False h h').grows

/-- What a cell holds after a safe step is there, or the cell held it before. -/
theorem Step.children (step : Step s safe h h') (hs : safe) {v w : Value} (hv : h'.Holds v)
    (hw : w ∈ h'.children v) : h'.Holds w ∨ (h.Holds v ∧ w ∈ h.children v) :=
  ((step.move hs).children hv hw).imp_left fun hw => hw.grows step.grows

theorem Step.closed (step : Step s safe h h') (hs : safe) (hc : h.Closed) : h'.Closed := by
  intro v hv w hw
  rcases step.children hs hv hw with hw | ⟨hv, hw⟩
  · exact hw
  · exact (hc v hv w hw).grows step.grows

theorem Steps.closed (steps : Steps s safe h h') (hs : safe) (hc : h.Closed) : h'.Closed := by
  induction steps with
  | refl => exact hc
  | tail _ step ih => exact step.closed hs ih

/-! ### What can be seen -/

/-- The values of a kind hold values of this kind only; those without a cell are all of it. -/
structure Sealed (h : Heap) (P : Value → Prop) : Prop where
  /-- Values without a cell. -/
  scalar : ∀ {v}, (∀ heap : Heap, heap.Holds v) → P v
  /-- What a value holds. -/
  child : ∀ {v w}, P v → w ∈ h.children v → P w

namespace Sealed

variable {P : Value → Prop} (hP : h.Sealed P)

include hP

theorem item {a : ArrayId} (ha : P (.array a)) (i : Nat) : P (h.item a i) := by
  unfold Heap.item
  rw [List.getD_eq_getElem?_getD]
  rcases hi : (h.items a)[i]? with _ | v
  · exact hP.scalar fun _ => trivial
  · exact hP.child ha (List.mem_of_getElem? hi)

theorem field {r : RecordId} (hr : P (.record r)) (key : String) : P ((h.fields r).get key) := by
  rcases (h.fields r).get_cases key with hk | hk
  · exact hP.child hr (List.mem_map.2 ⟨_, hk, rfl⟩)
  · rw [hk]
    exact hP.scalar fun _ => trivial

theorem data {m : ModelId} (hm : P (.model m)) : P (h.data m) := hP.child hm List.mem_cons_self

theorem unwrap {v : Value} (hv : P v) : P (h.unwrap v) := by
  cases v with
  | model m => exact hP.data hv
  | _ => exact hv

theorem record? {m : ModelId} {r : RecordId} (hm : P (.model m)) (hr : h.record? m = some r) :
    P (.record r) := by
  have data := hP.data hm
  rwa [h.data_of_record? hr] at data

end Sealed

theorem Closed.sealed (hc : h.Closed) : h.Sealed h.Holds := ⟨fun hv => hv h, fun hv => hc _ hv _⟩

/-- There are no dangling references, and the values are there. -/
structure Sound (vs : List Value) (h : Heap) : Prop where
  /-- Whatever a cell holds is there. -/
  closed : h.Closed
  /-- So are the values. -/
  there : ∀ v ∈ vs, h.Holds v

namespace Sound

variable {vs ws : List Value}

theorem steps (sound : h.Sound vs) (steps : Steps s safe h h') (hs : safe) : h'.Sound vs :=
  ⟨steps.closed hs sound.closed, fun v hv => (sound.there v hv).grows steps.grows⟩

theorem mono (sound : h.Sound vs) (sub : ∀ w ∈ ws, w ∈ vs) : h.Sound ws :=
  ⟨sound.closed, fun w hw => sound.there w (sub w hw)⟩

end Sound

end Heap

end Overlay
