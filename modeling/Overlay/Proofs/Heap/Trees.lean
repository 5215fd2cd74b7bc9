import Overlay.Proofs.Heap.Cells
import Overlay.Proofs.Heap.Reach

/-!
# Plain trees

Data that come from outside are trees of records and arrays: no cell is shared and no record has a
model attached.  `Heap.Trees` keeps the cells of the trees in a list, so that a change of other
cells is seen to leave them alone.

* `Heap.ChangesOnly` : a change of the heap that touches no other cells than those of a list;
* `Heap.Trees.of_changesOnly` : trees of untouched cells are still trees.
-/

namespace Overlay

/-- A value without parts. -/
def Value.isScalar : Value → Bool
  | .array _ => false
  | .record _ => false
  | .model _ => false
  | _ => true

namespace Heap

variable {h h' h'' : Heap} {cells cells' : List Value}

theorem children_of_isScalar {v : Value} (h : Heap) (plain : v.isScalar = true) :
    h.children v = [] := by
  cases v <;> first | rfl | cases plain

/-! ### Changes of some cells -/

/-- Of the cells that there were, only those of the list may be different, and no model is. -/
structure ChangesOnly (h h' : Heap) (cells : List Value) : Prop where
  /-- No cell is gone, and the models are the same. -/
  grows : h.Grows h'
  /-- The other records have the same fields. -/
  fields : ∀ r, h.Holds (.record r) → .record r ∉ cells → h'.fields r = h.fields r
  /-- They have the same models attached. -/
  attached : ∀ r, h.Holds (.record r) → .record r ∉ cells → h'.attached? r = h.attached? r
  /-- The other arrays have the same elements. -/
  items : ∀ a, h.Holds (.array a) → .array a ∉ cells → h'.items a = h.items a

theorem ChangesOnly.refl (h : Heap) (cells : List Value) : h.ChangesOnly h cells :=
  ⟨.refl h, fun _ _ _ => rfl, fun _ _ _ => rfl, fun _ _ _ => rfl⟩

/-- A change may go on with the cells of the list and with cells that were not there before. -/
theorem ChangesOnly.trans (d : h.ChangesOnly h' cells) (d' : h'.ChangesOnly h'' cells')
    (sub : ∀ v ∈ cells', v ∈ cells ∨ ¬ h.Holds v) : h.ChangesOnly h'' cells := by
  have untouched : ∀ {v : Value}, h.Holds v → v ∉ cells → v ∉ cells' := fun hv hn hv' =>
    (sub _ hv').elim hn fun hn' => hn' hv
  refine ⟨d.grows.trans d'.grows, fun r hr hn => ?_, fun r hr hn => ?_, fun a ha hn => ?_⟩
  · rw [d'.fields r (hr.grows d.grows) (untouched hr hn), d.fields r hr hn]
  · rw [d'.attached r (hr.grows d.grows) (untouched hr hn), d.attached r hr hn]
  · rw [d'.items a (ha.grows d.grows) (untouched ha hn), d.items a ha hn]

theorem ChangesOnly.mono (d : h.ChangesOnly h' cells)
    (sub : ∀ v ∈ cells, v ∈ cells' ∨ ¬ h.Holds v) : h.ChangesOnly h' cells' :=
  (ChangesOnly.refl h cells').trans d sub

theorem Extends.fields_eq (e : h.Extends h') {r : RecordId} (hr : h.Holds (.record r)) :
    h'.fields r = h.fields r := by
  rw [Heap.fields, e.records.getElem?_eq hr, Heap.fields]

theorem Extends.items_eq (e : h.Extends h') {a : ArrayId} (ha : h.Holds (.array a)) :
    h'.items a = h.items a := by
  rw [Heap.items, e.arrays.getElem?_eq ha, Heap.items]

theorem Extends.changesOnly (e : h.Extends h') (cells : List Value) : h.ChangesOnly h' cells :=
  ⟨e.grows, fun _ hr _ => e.fields_eq hr, fun _ hr _ => e.attached?_eq hr,
    fun _ ha _ => e.items_eq ha⟩

theorem changesOnly_insert (h : Heap) {r : RecordId} (hr : .record r ∈ cells) (key : String)
    (v : Value) : h.ChangesOnly (h.insert r key v) cells := by
  refine ⟨h.grows_insert r key v, fun r' _ hn => ?_, fun r' _ _ => by simp, fun _ _ _ => rfl⟩
  have : r' ≠ r := fun e => hn (e ▸ hr)
  rw [fields_insert, if_neg fun e => this e.1]

theorem changesOnly_setWrapper (h : Heap) {r : RecordId} (hr : .record r ∈ cells)
    (m : Option ModelId) : h.ChangesOnly (h.setWrapper r m) cells := by
  refine ⟨h.grows_setWrapper r m, fun r' _ _ => by simp, fun r' _ hn => ?_, fun _ _ _ => rfl⟩
  have : r' ≠ r := fun e => hn (e ▸ hr)
  rw [attached?_setWrapper, if_neg fun e => this e.1]

theorem changesOnly_setItem (h : Heap) {a : ArrayId} (ha : .array a ∈ cells) (i : Nat)
    (v : Value) : h.ChangesOnly (h.setItem a i v) cells := by
  refine ⟨h.grows_setItem a i v, fun _ _ _ => rfl, fun _ _ _ => rfl, fun a' _ hn => ?_⟩
  have : a' ≠ a := fun e => hn (e ▸ ha)
  rw [items_setItem, if_neg this]

/-! ### Trees -/

/-- The values are trees of records and arrays with these cells, listed from the top down. -/
inductive Trees (h : Heap) : List Value → List Value → Prop
  | nil : Trees h [] []
  /-- A value without parts. -/
  | scalar {v : Value} {vs cells : List Value} (plain : v.isScalar = true)
      (rest : Trees h vs cells) : Trees h (v :: vs) cells
  /-- An array of trees. -/
  | array {a : ArrayId} {vs cells cells' : List Value} (inside : Trees h (h.items a) cells)
      (rest : Trees h vs cells') : Trees h (.array a :: vs) (.array a :: (cells ++ cells'))
  /-- A record of trees. -/
  | record {r : RecordId} {vs cells cells' : List Value} (free : h.attached? r = none)
      (inside : Trees h (h.fields r).values cells) (rest : Trees h vs cells') :
      Trees h (.record r :: vs) (.record r :: (cells ++ cells'))

namespace Trees

variable {vs : List Value} {v : Value}

/-- Trees whose cells are untouched are still trees. -/
theorem of_changesOnly (t : h.Trees vs cells) (d : h.ChangesOnly h' cells')
    (hc : ∀ v ∈ cells, h.Holds v ∧ v ∉ cells') : h'.Trees vs cells := by
  induction t with
  | nil => exact .nil
  | scalar plain _ ih => exact .scalar plain (ih hc)
  | @array a vs cells₁ cells₂ _ _ ih₁ ih₂ =>
    obtain ⟨ha, hn⟩ := hc _ List.mem_cons_self
    refine .array ?_ (ih₂ fun v hv => hc v (by simp [hv]))
    rw [d.items a ha hn]
    exact ih₁ fun v hv => hc v (by simp [hv])
  | @record r vs cells₁ cells₂ free _ _ ih₁ ih₂ =>
    obtain ⟨hr, hn⟩ := hc _ List.mem_cons_self
    refine .record ((d.attached r hr hn).trans free) ?_ (ih₂ fun v hv => hc v (by simp [hv]))
    rw [d.fields r hr hn]
    exact ih₁ fun v hv => hc v (by simp [hv])

theorem split (t : h.Trees (v :: vs) cells) :
    ∃ cells₁ cells₂, cells = cells₁ ++ cells₂ ∧ h.Trees [v] cells₁ ∧ h.Trees vs cells₂ := by
  cases t with
  | scalar plain rest => exact ⟨[], _, rfl, .scalar plain .nil, rest⟩
  | @array a _ cells₁ cells₂ inside rest =>
    exact ⟨.array a :: (cells₁ ++ []), cells₂, by simp, .array inside .nil, rest⟩
  | @record r _ cells₁ cells₂ free inside rest =>
    exact ⟨.record r :: (cells₁ ++ []), cells₂, by simp, .record free inside .nil, rest⟩

theorem of_array {a : ArrayId} (t : h.Trees [.array a] cells) :
    ∃ inside, cells = .array a :: inside ∧ h.Trees (h.items a) inside := by
  cases t with
  | scalar plain _ => cases plain
  | array inside rest =>
    cases rest
    exact ⟨_, by rw [List.append_nil], inside⟩

theorem of_record {r : RecordId} (t : h.Trees [.record r] cells) :
    ∃ inside, cells = .record r :: inside ∧ h.attached? r = none ∧
      h.Trees (h.fields r).values inside := by
  cases t with
  | scalar plain _ => cases plain
  | record free inside rest =>
    cases rest
    exact ⟨_, by rw [List.append_nil], free, inside⟩

theorem not_model (t : h.Trees [v] cells) : v.isModel = false := by
  cases t with
  | scalar plain _ => cases v <;> first | rfl | cases plain
  | array _ _ => rfl
  | record _ _ _ => rfl

end Trees

/-- The second heap has new cells, and the values are plain trees of different ones among them. -/
structure Supplies (h h' : Heap) (vs : List Value) : Prop where
  /-- What was there is the same. -/
  more : h.Extends h'
  /-- The trees are new. -/
  trees : ∃ cells, h'.Trees vs cells ∧ cells.Nodup ∧ ∀ v ∈ cells, h'.Holds v ∧ ¬ h.Holds v

end Heap

end Overlay
