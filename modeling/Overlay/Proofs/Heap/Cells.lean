import Overlay.Heap.Basic

/-!
# Reading after writing

What can be read from the heap after one cell of it was changed or added.

* `Heap.fields_insert`, `Heap.attached?_setWrapper`, `Heap.items_setItem` : the cell that changes;
* `Heap.insert_get`, `Heap.setItem_item` : writing what is there already changes nothing;
* the other lemmas say that all else reads as before.
-/

namespace Overlay.Heap

variable (h : Heap)

/-! ### Fields -/

theorem fields_insert (r s : RecordId) (key : String) (v : Value) :
    (h.insert r key v).fields s =
      if s = r ∧ r.index < h.records.size then (h.fields s).insert key v else h.fields s := by
  obtain ⟨i⟩ := r
  obtain ⟨j⟩ := s
  simp only [fields, insert, Array.getElem?_modify, RecordId.mk.injEq]
  by_cases hij : i = j
  · subst hij
    rw [if_pos rfl]
    by_cases hi : i < h.records.size
    · rw [if_pos ⟨rfl, hi⟩, Array.getElem?_eq_getElem hi]
      rfl
    · rw [if_neg fun e => hi e.2, Array.getElem?_eq_none (Nat.le_of_not_lt hi)]
      rfl
  · rw [if_neg hij, if_neg fun e => hij e.1.symm]

@[simp] theorem fields_setWrapper (r s : RecordId) (m : Option ModelId) :
    (h.setWrapper r m).fields s = h.fields s := by
  simp only [fields, setWrapper, Array.getElem?_modify]
  by_cases hr : r.index = s.index
  · rw [if_pos hr]
    cases h.records[s.index]? <;> rfl
  · rw [if_neg hr]

@[simp] theorem fields_setItem (a : ArrayId) (i : Nat) (v : Value) (s : RecordId) :
    (h.setItem a i v).fields s = h.fields s := rfl

@[simp] theorem fields_addModel (t : TypeId) (v : Value) (s : RecordId) :
    (h.addModel t v).2.fields s = h.fields s := rfl

@[simp] theorem fields_addArray (vs : List Value) (s : RecordId) :
    (h.addArray vs).2.fields s = h.fields s := rfl

theorem fields_addRecord (f : Fields) (s : RecordId) :
    (h.addRecord f).2.fields s = if s.index = h.records.size then f else h.fields s := by
  simp only [fields, addRecord, Array.getElem?_push]
  by_cases hs : s.index = h.records.size
  · rw [if_pos hs, if_pos hs]
  · rw [if_neg hs, if_neg hs]

/-! ### Attached models -/

@[simp] theorem attached?_insert (r s : RecordId) (key : String) (v : Value) :
    (h.insert r key v).attached? s = h.attached? s := by
  simp only [attached?, insert, Array.getElem?_modify]
  split
  · cases h.records[s.index]? <;> rfl
  · rfl

theorem attached?_setWrapper (r s : RecordId) (m : Option ModelId) :
    (h.setWrapper r m).attached? s =
      if s = r ∧ r.index < h.records.size then m else h.attached? s := by
  obtain ⟨i⟩ := r
  obtain ⟨j⟩ := s
  simp only [attached?, setWrapper, Array.getElem?_modify, RecordId.mk.injEq]
  by_cases hij : i = j
  · subst hij
    rw [if_pos rfl]
    by_cases hi : i < h.records.size
    · rw [if_pos ⟨rfl, hi⟩, Array.getElem?_eq_getElem hi]
      rfl
    · rw [if_neg fun e => hi e.2, Array.getElem?_eq_none (Nat.le_of_not_lt hi)]
      rfl
  · rw [if_neg hij, if_neg fun e => hij e.1.symm]

@[simp] theorem attached?_setItem (a : ArrayId) (i : Nat) (v : Value) (s : RecordId) :
    (h.setItem a i v).attached? s = h.attached? s := rfl

@[simp] theorem attached?_addModel (t : TypeId) (v : Value) (s : RecordId) :
    (h.addModel t v).2.attached? s = h.attached? s := rfl

@[simp] theorem attached?_addArray (vs : List Value) (s : RecordId) :
    (h.addArray vs).2.attached? s = h.attached? s := rfl

@[simp] theorem attached?_addRecord (f : Fields) (s : RecordId) :
    (h.addRecord f).2.attached? s = h.attached? s := by
  simp only [attached?, addRecord, Array.getElem?_push]
  split
  · rename_i hs
    rw [Array.getElem?_eq_none (Nat.le_of_eq hs.symm)]
    rfl
  · rfl

theorem attached?_of_size_le {r : RecordId} (hr : h.records.size ≤ r.index) :
    h.attached? r = none := by
  simp only [attached?, Array.getElem?_eq_none hr, Option.bind_none]

theorem attached?_setWrapper_none (r : RecordId) : (h.setWrapper r none).attached? r = none := by
  rw [attached?_setWrapper]
  split
  · rfl
  · rename_i hr
    exact h.attached?_of_size_le (Nat.le_of_not_lt fun hlt => hr ⟨rfl, hlt⟩)

/-! ### Elements -/

@[simp] theorem items_insert (r : RecordId) (key : String) (v : Value) (b : ArrayId) :
    (h.insert r key v).items b = h.items b := rfl

@[simp] theorem items_setWrapper (r : RecordId) (m : Option ModelId) (b : ArrayId) :
    (h.setWrapper r m).items b = h.items b := rfl

theorem items_setItem (a b : ArrayId) (i : Nat) (v : Value) :
    (h.setItem a i v).items b = if b = a then (h.items b).set i v else h.items b := by
  obtain ⟨k⟩ := a
  obtain ⟨l⟩ := b
  simp only [items, setItem, Array.getElem?_modify, ArrayId.mk.injEq]
  by_cases hkl : k = l
  · subst hkl
    rw [if_pos rfl, if_pos rfl]
    cases h.arrays[k]? <;> rfl
  · rw [if_neg hkl, if_neg fun e => hkl e.symm]

@[simp] theorem items_addModel (t : TypeId) (v : Value) (b : ArrayId) :
    (h.addModel t v).2.items b = h.items b := rfl

@[simp] theorem items_addRecord (f : Fields) (b : ArrayId) :
    (h.addRecord f).2.items b = h.items b := rfl

theorem items_addArray (vs : List Value) (b : ArrayId) :
    (h.addArray vs).2.items b = if b.index = h.arrays.size then vs else h.items b := by
  simp only [items, addArray, Array.getElem?_push]
  by_cases hb : b.index = h.arrays.size
  · rw [if_pos hb, if_pos hb]
    rfl
  · rw [if_neg hb, if_neg hb]

section Items

variable {h : Heap} {a : ArrayId} {i : Nat} {w : Value}

theorem item_of_length_le (hi : (h.items a).length ≤ i) : h.item a i = .undefined := by
  rw [item, List.getD_eq_getElem?_getD, List.getElem?_eq_none hi, Option.getD_none]

theorem item_mem (hi : i < (h.items a).length) : h.item a i ∈ h.items a := by
  rw [item, List.getD_eq_getElem?_getD, List.getElem?_eq_getElem hi, Option.getD_some]
  exact List.getElem_mem hi

theorem exists_item (hw : w ∈ h.items a) : ∃ i, h.item a i = w := by
  obtain ⟨i, hi, rfl⟩ := List.getElem_of_mem hw
  refine ⟨i, ?_⟩
  rw [item, List.getD_eq_getElem?_getD, List.getElem?_eq_getElem hi, Option.getD_some]

end Items

theorem item_setItem (a b : ArrayId) (i j : Nat) (v : Value) :
    (h.setItem a i v).item b j =
      if b = a ∧ j = i ∧ i < (h.items a).length then v else h.item b j := by
  unfold item
  rw [items_setItem, List.getD_eq_getElem?_getD, List.getD_eq_getElem?_getD]
  by_cases hb : b = a
  · subst hb
    rw [if_pos rfl, List.getElem?_set]
    by_cases hij : i = j
    · subst hij
      by_cases hi : i < (h.items b).length
      · simp [hi]
      · simp [hi]
    · rw [if_neg hij, if_neg fun e => hij e.2.1.symm]
  · rw [if_neg hb, if_neg fun e => hb e.1]

/-! ### Data -/

theorem data_of_record? {m : ModelId} {r : RecordId} (hr : h.record? m = some r) :
    h.data m = .record r := by
  unfold record? at hr
  cases hd : h.data m <;> rw [hd] at hr <;> cases hr
  rfl

theorem record?_of_data {m : ModelId} {r : RecordId} (data : h.data m = .record r) :
    h.record? m = some r := by
  rw [record?, data]
  rfl

theorem data_addModel_eq (t : TypeId) (v : Value) (m : ModelId) :
    (h.addModel t v).2.data m = if m.index = h.models.size then v else h.data m := by
  simp only [data, addModel, Array.getElem?_push]
  by_cases hm : m.index = h.models.size
  · rw [if_pos hm, if_pos hm]
  · rw [if_neg hm, if_neg hm]

end Overlay.Heap

namespace Overlay.Fields

/-- What is read is the value of an entry, unless there is none. -/
theorem get_cases (f : Fields) (key : String) :
    (key, f.get key) ∈ f.entries ∨ f.get key = .undefined := by
  unfold get
  generalize f.entries = es
  induction es with
  | nil => exact Or.inr rfl
  | cons e es ih =>
    obtain ⟨k, v⟩ := e
    rw [valueAt]
    split
    · rename_i hk
      rw [hk]
      exact Or.inl List.mem_cons_self
    · exact ih.imp_left (List.mem_cons_of_mem _)

theorem get_mem_values (f : Fields) (key : String) :
    f.get key ∈ f.values ∨ f.get key = .undefined :=
  (f.get_cases key).imp_left fun h => List.mem_map.2 ⟨_, h, rfl⟩

theorem get_of_mem {f : Fields} {key : String} {v : Value} (h : (key, v) ∈ f.entries) :
    f.get key = v := by
  have nodup := f.nodup
  unfold get
  generalize f.entries = es at h nodup
  induction es with
  | nil => cases h
  | cons e es ih =>
    obtain ⟨k, w⟩ := e
    obtain ⟨hk, nodup⟩ := List.nodup_cons.1 nodup
    rw [valueAt]
    rcases List.mem_cons.1 h with e | h
    · cases e
      exact if_pos rfl
    · have other : k ≠ key := fun e => hk (e ▸ List.mem_map.2 ⟨_, h, rfl⟩)
      rw [if_neg other]
      exact ih h nodup

theorem mem_keys_iff {f : Fields} {key : String} : key ∈ f.keys ↔ f.get key ≠ .undefined := by
  refine ⟨fun h e => ?_, fun h => ?_⟩
  · obtain ⟨⟨k, v⟩, hv, rfl⟩ := List.mem_map.1 h
    exact f.stored _ hv ((get_of_mem hv).symm.trans e)
  · exact List.mem_map.2 ⟨_, (f.get_cases key).resolve_right h, rfl⟩

theorem entries_insert_of_not_mem {f : Fields} {key : String} {v : Value} (hk : key ∉ f.keys)
    (hv : v ≠ .undefined) : (f.insert key v).entries = f.entries ++ [(key, v)] := by
  have put : ∀ es : List (String × Value), key ∉ es.map Prod.fst →
      putEntry key v es = es ++ [(key, v)] := by
    intro es hk
    induction es with
    | nil => rfl
    | cons e es ih =>
      obtain ⟨k, w⟩ := e
      obtain ⟨hne, hk⟩ := not_or.1 (mt List.mem_cons.2 hk)
      rw [putEntry, if_neg fun e : k = key => hne e.symm, ih hk]
      rfl
  unfold insert
  rw [dif_neg hv]
  exact put f.entries hk

theorem entries_ofList {es : List (String × Value)} (nodup : (es.map Prod.fst).Nodup)
    (defined : ∀ e ∈ es, e.2 ≠ .undefined) : (ofList es).entries = es := by
  have fold : ∀ (es : List (String × Value)) (f : Fields), (f.keys ++ es.map Prod.fst).Nodup →
      (∀ e ∈ es, e.2 ≠ .undefined) →
        (es.foldl (fun f e => f.insert e.1 e.2) f).entries = f.entries ++ es := by
    intro es
    induction es with
    | nil => exact fun f _ _ => (List.append_nil _).symm
    | cons e es ih =>
      intro f nodup defined
      have fresh : e.1 ∉ f.keys := fun h =>
        (List.nodup_append.1 nodup).2.2 _ h _ List.mem_cons_self rfl
      have entries := entries_insert_of_not_mem fresh (defined e List.mem_cons_self)
      have keys : (f.insert e.1 e.2).keys = f.keys ++ [e.1] := by
        unfold Fields.keys
        rw [entries, List.map_append]
        rfl
      rw [List.foldl_cons, ih _ (by rw [keys, List.append_assoc]; exact nodup)
        fun e he => defined e (List.mem_cons_of_mem _ he), entries, List.append_assoc]
      rfl
  exact fold es empty nodup defined

/-- Storing what is there already changes nothing. -/
theorem insert_get (f : Fields) (key : String) : f.insert key (f.get key) = f := by
  have put : ∀ es : List (String × Value), valueAt key es ≠ .undefined →
      putEntry key (valueAt key es) es = es := by
    intro es
    induction es with
    | nil => exact fun hn => absurd rfl hn
    | cons e es ih =>
      obtain ⟨k, v⟩ := e
      intro hn
      rw [valueAt] at hn ⊢
      split at hn
      · rename_i hk
        rw [if_pos hk, putEntry, if_pos hk]
      · rename_i hk
        rw [if_neg hk, putEntry, if_neg hk, ih hn]
  have same : (f.insert key (f.get key)).entries = f.entries := by
    unfold insert
    split
    · rename_i none
      refine List.filter_eq_self.2 fun e he => decide_eq_true fun hk => ?_
      exact f.stored e he ((get_of_mem (hk ▸ he)).symm.trans none)
    · rename_i some
      exact put f.entries some
  obtain ⟨es, nodup, stored⟩ := f
  exact (Fields.mk.injEq ..).mpr same

end Overlay.Fields

namespace Overlay.Heap

theorem modify_eq_self {α : Type} {cells : Array α} {i : Nat} {f : α → α}
    (same : ∀ cell, cells[i]? = some cell → f cell = cell) : cells.modify i f = cells := by
  refine Array.ext (Array.size_modify ..) fun j hj hj' => ?_
  rw [Array.getElem_modify]
  split
  · rename_i hij
    subst hij
    exact same _ (Array.getElem?_eq_getElem hj')
  · rfl

theorem insert_get (h : Heap) (r : RecordId) (key : String) :
    h.insert r key ((h.fields r).get key) = h := by
  have same : h.records.modify r.index (fun cell =>
      { cell with fields := cell.fields.insert key ((h.fields r).get key) }) = h.records := by
    refine modify_eq_self fun cell found => ?_
    have own : h.fields r = cell.fields := by
      unfold fields
      rw [found]
    rw [own, Fields.insert_get]
  unfold insert
  rw [same]

theorem setItem_item (h : Heap) (a : ArrayId) (i : Nat) : h.setItem a i (h.item a i) = h := by
  have same : h.arrays.modify a.index (fun items => items.set i (h.item a i)) = h.arrays := by
    refine modify_eq_self fun items found => ?_
    have own : h.item a i = items.getD i .undefined := by
      unfold item Heap.items
      rw [found]
      rfl
    rw [own, List.getD_eq_getElem?_getD]
    by_cases hi : i < items.length
    · rw [List.getElem?_eq_getElem hi, Option.getD_some, List.set_getElem_self]
    · exact List.set_eq_of_length_le (Nat.le_of_not_lt hi)
  unfold setItem
  rw [same]

end Overlay.Heap
