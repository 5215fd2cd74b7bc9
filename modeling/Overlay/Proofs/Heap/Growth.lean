import Overlay.Heap.Basic

/-!
# How the heap grows

Whatever runs, cells are only added.  A record may get other fields and another model attached, and
an array other elements, but a model stays an instance of its type around its datum for good.

* `Heap.Grows` : what every operation does to the heap at most;
* `Heap.Extends` : what taking a snapshot does: no cell that was there changes.
-/

namespace Overlay

/-- The places of one array are those of another one, with the same cells, and perhaps more. -/
def Within {α : Type} (cells cells' : Array α) : Prop :=
  ∀ (i : Nat) (cell : α), cells[i]? = some cell → cells'[i]? = some cell

namespace Within

variable {α : Type} {cells cells' cells'' : Array α}

theorem refl (cells : Array α) : Within cells cells := fun _ _ h => h

theorem trans (h : Within cells cells') (h' : Within cells' cells'') : Within cells cells'' :=
  fun i cell hi => h' i cell (h i cell hi)

theorem push (cells : Array α) (cell : α) : Within cells (cells.push cell) := by
  intro i cell' hi
  obtain ⟨hlt, rfl⟩ := Array.getElem?_eq_some_iff.1 hi
  rw [Array.getElem?_push, if_neg (by omega), hi]

theorem size_le (h : Within cells cells') : cells.size ≤ cells'.size := by
  refine Nat.le_of_not_lt fun hlt => ?_
  have := h cells'.size _ (Array.getElem?_eq_getElem hlt)
  rw [Array.getElem?_eq_none (Nat.le_refl _)] at this
  cases this

theorem getElem?_eq (h : Within cells cells') {i : Nat} (hi : i < cells.size) :
    cells'[i]? = cells[i]? := by
  have hc := Array.getElem?_eq_getElem hi
  rw [hc, h i _ hc]

end Within

namespace Heap

/-- The models are the same, and there may be more cells. -/
structure Grows (h h' : Heap) : Prop where
  /-- No record is gone. -/
  records : h.records.size ≤ h'.records.size
  /-- No array is gone. -/
  arrays : h.arrays.size ≤ h'.arrays.size
  /-- No model changes. -/
  models : Within h.models h'.models

/-- The cells are the same, and there may be more. -/
structure Extends (h h' : Heap) : Prop where
  /-- No record changes. -/
  records : Within h.records h'.records
  /-- No array changes. -/
  arrays : Within h.arrays h'.arrays
  /-- No model changes. -/
  models : Within h.models h'.models

variable {h h' h'' : Heap}

/-! ### Growing -/

theorem Grows.refl (h : Heap) : h.Grows h := ⟨Nat.le_refl _, Nat.le_refl _, .refl _⟩

theorem Grows.trans (g : h.Grows h') (g' : h'.Grows h'') : h.Grows h'' :=
  ⟨Nat.le_trans g.records g'.records, Nat.le_trans g.arrays g'.arrays, g.models.trans g'.models⟩

theorem grows_insert (h : Heap) (r : RecordId) (key : String) (v : Value) :
    h.Grows (h.insert r key v) :=
  ⟨by simp [insert], Nat.le_refl _, .refl _⟩

theorem grows_setWrapper (h : Heap) (r : RecordId) (m : Option ModelId) :
    h.Grows (h.setWrapper r m) :=
  ⟨by simp [setWrapper], Nat.le_refl _, .refl _⟩

theorem grows_setItem (h : Heap) (a : ArrayId) (i : Nat) (v : Value) : h.Grows (h.setItem a i v) :=
  ⟨Nat.le_refl _, by simp [setItem], .refl _⟩

theorem Grows.type_eq (g : h.Grows h') {m : ModelId} (hm : m.index < h.models.size) :
    h'.type m = h.type m := by
  rw [type, g.models.getElem?_eq hm, type]

theorem Grows.data_eq (g : h.Grows h') {m : ModelId} (hm : m.index < h.models.size) :
    h'.data m = h.data m := by
  rw [data, g.models.getElem?_eq hm, data]

/-! ### Adding cells -/

theorem Extends.refl (h : Heap) : h.Extends h := ⟨.refl _, .refl _, .refl _⟩

theorem Extends.trans (e : h.Extends h') (e' : h'.Extends h'') : h.Extends h'' :=
  ⟨e.records.trans e'.records, e.arrays.trans e'.arrays, e.models.trans e'.models⟩

theorem Extends.grows (e : h.Extends h') : h.Grows h' :=
  ⟨e.records.size_le, e.arrays.size_le, e.models⟩

theorem extends_addRecord (h : Heap) (f : Fields) : h.Extends (h.addRecord f).2 :=
  ⟨.push _ _, .refl _, .refl _⟩

theorem extends_addArray (h : Heap) (vs : List Value) : h.Extends (h.addArray vs).2 :=
  ⟨.refl _, .push _ _, .refl _⟩

theorem extends_addModel (h : Heap) (t : TypeId) (v : Value) : h.Extends (h.addModel t v).2 :=
  ⟨.refl _, .refl _, .push _ _⟩

@[simp] theorem type_addModel (h : Heap) (t : TypeId) (v : Value) :
    (h.addModel t v).2.type (h.addModel t v).1 = t := by
  simp [type, addModel]

@[simp] theorem data_addModel (h : Heap) (t : TypeId) (v : Value) :
    (h.addModel t v).2.data (h.addModel t v).1 = v := by
  simp [data, addModel]

theorem index_addModel_lt (h : Heap) (t : TypeId) (v : Value) :
    (h.addModel t v).1.index < (h.addModel t v).2.models.size := by
  simp [addModel]

end Heap

end Overlay
