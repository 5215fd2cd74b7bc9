import Overlay.Proofs.Heap.Guards
import Overlay.Proofs.Heap.Trees

/-!
# Models attached to records

A model is attached only to the record that it wraps, and it goes on to wrap it.  Cells stay as they
are, with what is attached to them, while steps write nothing from which they can be reached.

* `Heap.Tied` : whatever is attached to a record is a model of it, of a type with properties;
* `Heap.Step.tied` : every step keeps this;
* `Heap.Guard.missing` : the values from which none of some cells is reached; steps that write such
  values, into such cells, leave those cells as they are.
-/

namespace Overlay.Heap

variable {s : Schema} {safe : Prop} {h h' : Heap} {r : RecordId} {m : ModelId} {v : Value}

/-! ### What is attached -/

/-- Whatever is attached to a record is a model around it, of a type with properties. -/
def Tied (s : Schema) (h : Heap) : Prop :=
  ∀ r m, h.attached? r = some m →
    h.Holds (.model m) ∧ h.data m = .record r ∧ (s.type (h.type m)).isStructured = true

theorem Tied.grows (tied : h.Tied s) (grows : h.Grows h')
    (attached : h'.attached? r = some m → h.attached? r = some m)
    (hm : h'.attached? r = some m) :
    h'.Holds (.model m) ∧ h'.data m = .record r ∧ (s.type (h'.type m)).isStructured = true := by
  obtain ⟨there, data, structured⟩ := tied r m (attached hm)
  exact ⟨there.grows grows, (grows.data_eq there).trans data, grows.type_eq there ▸ structured⟩

theorem Step.tied (step : Step s safe h h') (tied : h.Tied s) : h'.Tied s := by
  intro r m hm
  have old : (h'.attached? r = some m → h.attached? r = some m) →
      h'.Holds (.model m) ∧ h'.data m = .record r ∧ (s.type (h'.type m)).isStructured = true :=
    fun attached => tied.grows step.grows attached hm
  cases step with
  | insert => exact old fun hm => by rwa [attached?_insert] at hm
  | setItem => exact old id
  | @attach r' m' there data structured =>
    rw [attached?_setWrapper] at hm
    split at hm
    · rename_i hr
      cases hm
      rw [hr.1]
      exact ⟨there, data, structured⟩
    · exact tied r m hm
  | detach r' =>
    rw [attached?_setWrapper] at hm
    split at hm
    · cases hm
    · exact tied r m hm
  | addRecord => exact old fun hm => by rwa [attached?_addRecord] at hm
  | addArray => exact old id
  | addModel => exact old id

theorem Steps.tied (steps : Steps s safe h h') (tied : h.Tied s) : h'.Tied s := by
  induction steps with
  | refl => exact tied
  | tail _ step ih => exact step.tied ih

theorem holds_of_attached? (hm : h.attached? r = some m) : h.Holds (.record r) := by
  refine Nat.lt_of_not_le fun hr => ?_
  rw [h.attached?_of_size_le hr] at hm
  cases hm

theorem Tied.wrapper? (tied : h.Tied s) {roots : List Value} (hm : h.wrapper? roots r = some m) :
    h.record? m = some r ∧ (s.type (h.type m)).isStructured = true := by
  obtain ⟨-, data, structured⟩ := tied r m (Option.filter_eq_some_iff.1 hm).1
  exact ⟨by rw [Heap.record?, data]; rfl, structured⟩

theorem wrapper?_of_mem {roots : List Value} (closed : h.Closed) (there : ∀ v ∈ roots, h.Holds v)
    (attached : h.attached? r = some m) (hm : .model m ∈ roots) : h.wrapper? roots r = some m := by
  have reach := (model_mem_reach_iff closed.closedOn there).2 (.root hm)
  rw [wrapper?, attachedIn?, attached, Option.filter_some, List.contains_iff_mem.2 reach]
  rfl

/-! ### What does not reach a record -/

theorem Reachable.cases_child {w : Value} (reach : h.Reachable [v] w) :
    w = v ∨ ∃ u ∈ h.children v, h.Reachable [u] w := by
  induction reach with
  | root mem => exact Or.inl (List.mem_singleton.1 mem)
  | @child x y _ mem ih =>
    rcases ih with rfl | ⟨u, hu, ih⟩
    · exact Or.inr ⟨y, mem, .root List.mem_cons_self⟩
    · exact Or.inr ⟨u, hu, .child ih mem⟩

theorem Reachable.through {u w : Value} (hu : u ∈ h.children v) (reach : h.Reachable [u] w) :
    h.Reachable [v] w := by
  induction reach with
  | root mem => exact List.mem_singleton.1 mem ▸ .child (.root List.mem_cons_self) hu
  | child _ mem ih => exact .child ih mem

theorem Reachable.of_roots {roots roots' : List Value} (reach : h.Reachable roots v)
    (sub : ∀ u ∈ roots, h.Reachable roots' u) : h.Reachable roots' v := by
  induction reach with
  | root mem => exact sub _ mem
  | child _ mem ih => exact .child ih mem

theorem Reachable.trans {u : Value} {roots : List Value} (hu : h.Reachable roots u)
    (reach : h.Reachable [u] v) : h.Reachable roots v :=
  reach.of_roots fun _ mem => List.mem_singleton.1 mem ▸ hu

theorem Reachable.of_cons {u : Value} {roots : List Value} (reach : h.Reachable (u :: roots) v) :
    h.Reachable [u] v ∨ h.Reachable roots v := by
  induction reach with
  | root mem =>
    rcases List.mem_cons.1 mem with rfl | mem
    · exact Or.inl (.root List.mem_cons_self)
    · exact Or.inr (.root mem)
  | child _ mem ih => exact ih.imp (.child · mem) (.child · mem)

theorem Reachable.of_children {roots : List Value} (reach : h.Reachable roots v)
    (keeps : ∀ {u w}, w ∈ h.children u → h.Reachable [w] v → w ∈ h'.children u) :
    h'.Reachable roots v := by
  have kept : ∀ u, h.Reachable roots u → h.Reachable [u] v → h'.Reachable roots u := by
    intro u hu
    induction hu with
    | root mem => exact fun _ => .root mem
    | child _ mem ih => exact fun later => .child (ih (later.through mem)) (keeps mem later)
  exact kept v reach (.root List.mem_cons_self)

theorem Reachable.mem_cells {cells roots : List Value} (hr : ∀ v ∈ roots, v ∈ cells)
    (inside : ∀ v ∈ cells, ∀ w ∈ h.children v, w ∈ cells) (reach : h.Reachable roots v) :
    v ∈ cells := by
  induction reach with
  | root mem => exact hr _ mem
  | child _ mem ih => exact inside _ ih _ mem

theorem children_of_not_holds (hv : ¬ h.Holds v) : ∀ w ∈ h.children v, w = .undefined := by
  intro w hw
  cases v with
  | record r =>
    rw [Heap.children, fields, Array.getElem?_eq_none (Nat.le_of_not_lt hv)] at hw
    exact absurd hw List.not_mem_nil
  | array a =>
    rw [Heap.children, items, Array.getElem?_eq_none (Nat.le_of_not_lt hv)] at hw
    exact absurd hw List.not_mem_nil
  | model m =>
    rw [Heap.children, data, Array.getElem?_eq_none (Nat.le_of_not_lt hv)] at hw
    exact List.mem_singleton.1 hw
  | _ => exact absurd trivial hv

/-- None of these cells is reached from the value. -/
def Misses (h : Heap) (K : Value → Prop) (v : Value) : Prop := ∀ w, K w → ¬ h.Reachable [v] w

/-- These are records and arrays that are there. -/
def Houses (h : Heap) (K : Value → Prop) : Prop :=
  ∀ w, K w → h.Holds w ∧ (w.isRecord = true ∨ w.isArray = true)

theorem Houses.kind {K : Value → Prop} (houses : h.Houses K) :
    ∀ w, K w → w.isRecord = true ∨ w.isArray = true :=
  fun w hw => (houses w hw).2

namespace Misses

variable {K : Value → Prop}

theorem not_mem (misses : h.Misses K v) : ¬ K v := fun hv => misses v hv (.root List.mem_cons_self)

theorem of_children (out : ¬ K v) (inside : ∀ w ∈ h.children v, h.Misses K w) : h.Misses K v := by
  intro w hw reach
  rcases reach.cases_child with rfl | ⟨u, hu, reach⟩
  · exact out hw
  · exact inside u hu w hw reach

theorem child {w : Value} (misses : h.Misses K v) (hw : w ∈ h.children v) : h.Misses K w :=
  fun u hu reach => misses u hu (reach.through hw)

theorem scalar (kind : ∀ w, K w → w.isRecord = true ∨ w.isArray = true)
    (hv : ∀ heap : Heap, heap.Holds v) : h.Misses K v := by
  have none := hv .empty
  refine of_children (fun hk => ?_) fun w hw => ?_
  · have kind := kind v hk
    cases v with
    | record => exact Nat.not_lt_zero _ none
    | array => exact Nat.not_lt_zero _ none
    | _ => rcases kind with kind | kind <;> cases kind
  · cases v with
    | record => exact absurd none (Nat.not_lt_zero _)
    | array => exact absurd none (Nat.not_lt_zero _)
    | model => exact absurd none (Nat.not_lt_zero _)
    | _ => exact absurd hw List.not_mem_nil

theorem of_not_holds (houses : h.Houses K) (hv : ¬ h.Holds v) : h.Misses K v := by
  refine of_children (fun hk => hv (houses v hk).1) fun w hw => ?_
  rw [children_of_not_holds hv w hw]
  exact scalar houses.kind fun _ => trivial

end Misses

/-- The record is not reached from the value. -/
def Avoids (h : Heap) (r : RecordId) (v : Value) : Prop := ¬ h.Reachable [v] (.record r)

namespace Avoids

theorem misses (avoids : h.Avoids r v) : h.Misses (· = .record r) v := by
  rintro w rfl
  exact avoids

theorem of_misses (misses : h.Misses (· = .record r) v) : h.Avoids r v := misses _ rfl

theorem ne (avoids : h.Avoids r v) : v ≠ .record r := avoids.misses.not_mem

theorem child {w : Value} (avoids : h.Avoids r v) (hw : w ∈ h.children v) : h.Avoids r w :=
  .of_misses (avoids.misses.child hw)

theorem scalar (hv : ∀ heap : Heap, heap.Holds v) : h.Avoids r v :=
  .of_misses (.scalar (fun _ e => Or.inl (e ▸ rfl)) hv)

end Avoids

/-- What is kept around cells while steps write no values from which they were reached: they stay as
they are, and what does not reach them goes on to hold such values only. -/
structure Framed (s : Schema) (K : Value → Prop) (before h : Heap) : Prop where
  /-- No cell is gone. -/
  grows : before.Grows h
  /-- Models are attached to their records only. -/
  tied : h.Tied s
  /-- The records have the same fields. -/
  fields : ∀ r, K (.record r) → h.fields r = before.fields r
  /-- They have the same models attached. -/
  attached : ∀ r, K (.record r) → h.attached? r = before.attached? r
  /-- The arrays have the same elements. -/
  items : ∀ a, K (.array a) → h.items a = before.items a
  /-- What does not reach the cells holds such values only. -/
  inside : ∀ {v w}, before.Misses K v → w ∈ h.children v → before.Misses K w

theorem Framed.refl {K : Value → Prop} (tied : h.Tied s) : Framed s K h h :=
  ⟨.refl h, tied, fun _ _ => rfl, fun _ _ => rfl, fun _ _ => rfl, fun hv hw => hv.child hw⟩

theorem Framed.sealed {K : Value → Prop} {before : Heap} (framed : Framed s K before h)
    (houses : before.Houses K) : h.Sealed (before.Misses K) :=
  ⟨fun hv => .scalar houses.kind hv, framed.inside⟩

theorem Framed.move {K : Value → Prop} {before : Heap} (houses : before.Houses K)
    (framed : Framed s K before h) (move : Move s (before.Misses K) (before.Misses K) h h') :
    Framed s K before h' := by
  have step : Step s False h h' := move.step fun _ _ => False.elim
  have there : ∀ {w}, K w → h.Holds w := fun hw => ((houses _ hw).1).grows framed.grows
  refine ⟨framed.grows.trans move.grows, step.tied framed.tied, fun r hr => ?_, fun r hr => ?_,
    fun a ha => ?_, @fun v w hv hw => ?_⟩
  · rw [← framed.fields r hr]
    cases move with
    | @insert r' hr' => exact (fields_insert ..).trans (if_neg fun e => (e.1 ▸ hr').not_mem hr)
    | addRecord => exact (h.extends_addRecord _).fields_eq (there hr)
    | setItem => rfl
    | addArray => rfl
    | addModel => rfl
    | attach => exact fields_setWrapper ..
    | detach => exact fields_setWrapper ..
  · rw [← framed.attached r hr]
    cases move with
    | insert => exact attached?_insert ..
    | setItem => rfl
    | attach hr' => exact (attached?_setWrapper ..).trans (if_neg fun e => (e.1 ▸ hr').not_mem hr)
    | detach hr' => exact (attached?_setWrapper ..).trans (if_neg fun e => (e.1 ▸ hr').not_mem hr)
    | addRecord => exact attached?_addRecord ..
    | addArray => rfl
    | addModel => rfl
  · rw [← framed.items a ha]
    cases move with
    | @setItem a' ha' => exact (items_setItem ..).trans (if_neg fun e => (e ▸ ha').not_mem ha)
    | addArray => exact (h.extends_addArray _).items_eq (there ha)
    | _ => rfl
  · by_cases held : h'.Holds v
    · exact (move.children held hw).elim id fun old => framed.inside hv old.2
    · rw [children_of_not_holds held _ hw]
      exact .scalar houses.kind fun _ => trivial

/-- The values from which the cells were not reached.  Steps that write these, and into these, leave
the cells as they are. -/
def Guard.missing (s : Schema) {before : Heap} {K : Value → Prop} (houses : before.Houses K) :
    Guard s where
  Ok h := Framed s K before h
  Has _ v := before.Misses K v
  Uses _ _ := True
  inside ok := ok.sealed houses
  wrapper {h _ r' m'} ok hr' _ hm := by
    obtain ⟨there, data, -⟩ := ok.tied r' m' (Option.filter_eq_some_iff.1 hm).1
    by_cases old : before.Holds (.model m')
    · refine .of_children (fun hk => ?_) fun w hw => ?_
      · rcases (houses _ hk).2 with kind | kind <;> cases kind
      · rw [List.mem_singleton.1 hw, ← ok.grows.data_eq old, data]
        exact hr'
    · exact .of_not_holds houses old
  uses _ _ := trivial
  fresh ok _ hv _ := .of_not_holds houses fun old => hv (old.grows ok.grows)
  ok ok move := ok.move houses move
  has _ hv := hv
  stays _ _ := trivial

end Overlay.Heap
