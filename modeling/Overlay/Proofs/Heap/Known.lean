import Overlay.Proofs.Heap.Laid

/-!
# Values known by their slots

A snapshot goes by the models that it finds attached to records.  What is `Heap.Known` in a slot is
cleaned as the slot declares it whatever else is held: a model attached to one of its records is an
instance of just the declared type, and where none is declared there is none.

* `Heap.Known.of_free` : where no models are attached, everything is known in every slot;
* `Heap.Known.of_changesOnly` : changes of other cells make no difference;
* `Heap.Known.shows_free` : what is known without a slot has no models attached.
-/

namespace Overlay.Heap

variable {s : Schema} {h h' : Heap} {P : Value → Prop} {q : Option Slot} {v : Value}
  {vs : List Value} {xs : List Tree} {cells : List Value}

/-- A model attached to the record is an instance of just the type around it. -/
def Ties (h : Heap) (t : TypeId) (r : RecordId) : Prop :=
  ∀ m, h.attached? r = some m → h.Holds (.model m) ∧ h.data m = .record r ∧ h.type m = t

/-- The value has no model attached to it. -/
def Free (h : Heap) (v : Value) : Prop := ∀ r, v = .record r → h.attached? r = none

/-- The value is what its slot says.  What stands under a reserved key of a record that has a type
may be anything. -/
inductive Known (s : Schema) (h : Heap) : Option Slot → Value → Prop
  | scalar {q : Option Slot} {v : Value} (plain : v.isScalar = true) : Known s h q v
  | array {q : Option Slot} {a : ArrayId}
      (inside : ∀ v ∈ h.items a, Known s h (q.bind Slot.element?) v) : Known s h q (.array a)
  /-- A record whose fields are known by nothing. -/
  | loose {q : Option Slot} {r : RecordId} (shape : q.bind (Slot.shape? s) = none)
      (free : h.attached? r = none) (inside : ∀ v ∈ (h.fields r).values, Known s h none v) :
      Known s h q (.record r)
  /-- A record whose fields are known by the properties of a type. -/
  | record {q : Option Slot} {t : TypeId} {r : RecordId} (shape : q.bind (Slot.shape? s) = some t)
      (ties : h.Ties t r)
      (inside : ∀ key, isReserved key = false →
        Known s h ((s.type t).slot? key) ((h.fields r).get key)) : Known s h q (.record r)

theorem Ties.of_changesOnly {t : TypeId} {r : RecordId} (ties : h.Ties t r)
    (d : h.ChangesOnly h' cells) (held : h.Holds (.record r)) (untouched : .record r ∉ cells) :
    h'.Ties t r := by
  intro m hm
  rw [d.attached r held untouched] at hm
  obtain ⟨hm, data, type⟩ := ties m hm
  exact ⟨hm.grows d.grows, (d.grows.data_eq hm).trans data, (d.grows.type_eq hm).trans type⟩

namespace Known

/-- Where no models are attached, everything is known. -/
theorem of_free (sh : h.Shows P vs xs) (free : ∀ r, P (.record r) → h.attached? r = none) :
    ∀ v ∈ vs, ∀ q, Known s h q v := by
  induction sh with
  | nil => exact fun _ hv => absurd hv List.not_mem_nil
  | leaf plain _ ih =>
    intro v hv q
    rcases List.mem_cons.1 hv with rfl | hv
    · exact .scalar plain
    · exact ih v hv q
  | array _ _ _ ih₁ ih₂ =>
    intro v hv q
    rcases List.mem_cons.1 hv with rfl | hv
    · exact .array fun v hv => ih₁ v hv _
    · exact ih₂ v hv q
  | @record r vs es xs mem _ _ _ ih₁ ih₂ =>
    intro v hv q
    rcases List.mem_cons.1 hv with rfl | hv
    · cases hq : q.bind (Slot.shape? s) with
      | none => exact .loose hq (free r mem) fun v hv => ih₁ v hv _
      | some t =>
        refine .record hq (fun m hm => absurd hm (by rw [free r mem]; exact nofun)) fun key _ => ?_
        rcases (h.fields r).get_mem_values key with hv | e
        · exact ih₁ _ hv _
        · exact e ▸ .scalar rfl
    · exact ih₂ v hv q

/-- Changes of other cells make no difference. -/
theorem of_changesOnly (sh : h.Shows P vs xs) (d : h.ChangesOnly h' cells)
    (hP : ∀ v, P v → h.Holds v ∧ v ∉ cells) :
    ∀ v ∈ vs, ∀ q, Known s h q v → Known s h' q v := by
  induction sh with
  | nil => exact fun _ hv => absurd hv List.not_mem_nil
  | leaf plain _ ih =>
    intro v hv q k
    rcases List.mem_cons.1 hv with rfl | hv
    · exact .scalar plain
    · exact ih v hv q k
  | @array a vs ys xs mem _ _ ih₁ ih₂ =>
    intro v hv q k
    rcases List.mem_cons.1 hv with rfl | hv
    · obtain ⟨held, untouched⟩ := hP _ mem
      cases k with
      | scalar plain => cases plain
      | array inside =>
        refine .array fun v hv => ?_
        rw [d.items a held untouched] at hv
        exact ih₁ v hv _ (inside v hv)
    · exact ih₂ v hv q k
  | @record r vs es xs mem _ _ _ ih₁ ih₂ =>
    intro v hv q k
    rcases List.mem_cons.1 hv with rfl | hv
    · obtain ⟨held, untouched⟩ := hP _ mem
      have fields := d.fields r held untouched
      cases k with
      | scalar plain => cases plain
      | loose shape free inside =>
        refine .loose shape ((d.attached r held untouched).trans free) fun v hv => ?_
        rw [fields] at hv
        exact ih₁ v hv _ (inside v hv)
      | record shape ties inside =>
        refine .record shape (ties.of_changesOnly d held untouched) fun key hk => ?_
        rw [fields]
        rcases (h.fields r).get_mem_values key with hv | e
        · exact ih₁ _ hv _ (inside key hk)
        · exact e ▸ .scalar rfl
    · exact ih₂ v hv q k

/-- What is known without a slot has no models attached anywhere. -/
theorem shows_free (sh : h.Shows P vs xs) (known : ∀ v ∈ vs, Known s h none v) :
    h.Shows (fun v => P v ∧ h.Free v) vs xs := by
  induction sh with
  | nil => exact .nil
  | leaf plain _ ih => exact .leaf plain (ih fun v hv => known v (List.mem_cons_of_mem _ hv))
  | array mem _ _ ih₁ ih₂ =>
    have rest := ih₂ fun v hv => known v (List.mem_cons_of_mem _ hv)
    cases known _ List.mem_cons_self with
    | scalar plain => cases plain
    | array inside => exact .array ⟨mem, nofun⟩ (ih₁ inside) rest
  | record mem keys _ _ ih₁ ih₂ =>
    have rest := ih₂ fun v hv => known v (List.mem_cons_of_mem _ hv)
    cases known _ List.mem_cons_self with
    | scalar plain => cases plain
    | loose _ free inside =>
      exact .record ⟨mem, fun r e => by cases e; exact free⟩ keys (ih₁ inside) rest
    | record shape _ _ => cases shape

end Known

end Overlay.Heap
