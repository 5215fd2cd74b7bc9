import Overlay.Proofs.Heap.Attached

/-!
# Changing containers

A program that has a record or an array at hand may store, replace and remove what it holds, and it
may add containers of its own.  If the containers that it changes led to no models, then the other
ones stay as they are, and so do the models that are held.

* `Heap.Edit` : one change;
* `Heap.Edit.edited` : all that it does;
* `Heap.Edits.kept` : what any number of changes leaves as it was.
-/

namespace Overlay.Heap

variable {h h' h'' : Heap} {C : Value → Prop} {roots roots' : List Value} {v w : Value}

/-- The value is there, and all models that it leads to are held. -/
structure Usable (h : Heap) (roots : List Value) (v : Value) : Prop where
  /-- It is there. -/
  there : h.Holds v
  /-- The models are held. -/
  models : ∀ m, h.Reachable [v] (.model m) → h.Reachable roots (.model m)

/-- A change of a container of this kind, or a container that is added, with values of which all
models are held. -/
inductive Edit (C : Value → Prop) (roots : List Value) : Heap → Heap → Prop
  /-- A value is stored under a key. -/
  | insert {h : Heap} {r : RecordId} (cell : C (.record r)) (key : String) {v : Value}
      (usable : h.Usable roots v) : Edit C roots h (h.insert r key v)
  /-- A key is removed. -/
  | remove {h : Heap} {r : RecordId} (cell : C (.record r)) (key : String) :
      Edit C roots h (h.remove r key)
  /-- A value replaces an element. -/
  | setItem {h : Heap} {a : ArrayId} (cell : C (.array a)) (i : Nat) {v : Value}
      (usable : h.Usable roots v) : Edit C roots h (h.setItem a i v)
  /-- An element is added at the end. -/
  | pushItem {h : Heap} {a : ArrayId} (cell : C (.array a)) {v : Value}
      (usable : h.Usable roots v) : Edit C roots h (h.pushItem a v)
  /-- A record is added. -/
  | addRecord {h : Heap} {f : Fields} (usable : ∀ v ∈ f.values, h.Usable roots v) :
      Edit C roots h (h.addRecord f).2
  /-- An array is added. -/
  | addArray {h : Heap} {vs : List Value} (usable : ∀ v ∈ vs, h.Usable roots v) :
      Edit C roots h (h.addArray vs).2

/-- One change after another. -/
abbrev Edits (C : Value → Prop) (roots : List Value) : Heap → Heap → Prop :=
  Relation.ReflTransGen (Edit C roots)

/-! ### One change -/

theorem remove_eq_insert (h : Heap) (r : RecordId) (key : String) :
    h.remove r key = h.insert r key .undefined := by
  simp only [remove, insert, Fields.insert_undefined]

theorem items_pushItem (h : Heap) (a b : ArrayId) (v : Value) :
    (h.pushItem a v).items b =
      if b = a ∧ a.index < h.arrays.size then h.items b ++ [v] else h.items b := by
  obtain ⟨k⟩ := a
  obtain ⟨l⟩ := b
  simp only [items, pushItem, Array.getElem?_modify, ArrayId.mk.injEq]
  by_cases hkl : k = l
  · subst hkl
    by_cases hk : k < h.arrays.size
    · simp [hk]
    · simp [hk]
  · rw [if_neg hkl, if_neg fun e => hkl e.1.symm]

theorem grows_pushItem (h : Heap) (a : ArrayId) (v : Value) : h.Grows (h.pushItem a v) :=
  ⟨Nat.le_refl _, by simp [pushItem], .refl _⟩

/-- What a change does: it leaves the other containers and what is attached to records as they were,
and puts only usable values into containers. -/
structure Edited (C : Value → Prop) (roots : List Value) (h h' : Heap) : Prop where
  /-- No cell is gone, and the models are the same. -/
  grows : h.Grows h'
  /-- The other records have the same fields. -/
  fields : ∀ r, h.Holds (.record r) → ¬ C (.record r) → h'.fields r = h.fields r
  /-- The other arrays have the same elements. -/
  items : ∀ a, h.Holds (.array a) → ¬ C (.array a) → h'.items a = h.items a
  /-- The same models are attached. -/
  attached : ∀ r, h'.attached? r = h.attached? r
  /-- What a cell holds is usable, or the cell held it. -/
  children : ∀ {v w}, w ∈ h'.children v → h.Usable roots w ∨ w ∈ h.children v

theorem usable_of_isScalar (h : Heap) (roots : List Value) (plain : v.isScalar = true) :
    h.Usable roots v := by
  have there : h.Holds v := by cases v <;> first | exact trivial | cases plain
  refine ⟨there, fun m reach => ?_⟩
  rcases reach.cases_child with rfl | ⟨w, mem, -⟩
  · cases plain
  · rw [h.children_of_isScalar plain] at mem
    cases mem

theorem edited_insert {r : RecordId} (cell : C (.record r)) (key : String)
    (usable : h.Usable roots v) : Edited C roots h (h.insert r key v) := by
  refine ⟨h.grows_insert r key v, fun o _ out => ?_, fun _ _ _ => rfl,
    fun _ => h.attached?_insert .., fun {u w} mem => ?_⟩
  · rw [fields_insert, if_neg]
    rintro ⟨rfl, -⟩
    exact out cell
  · cases u with
    | record o =>
      rw [Heap.children, fields_insert] at mem
      split at mem
      · rcases Fields.mem_values_insert mem with rfl | mem
        · exact Or.inl usable
        · exact Or.inr mem
      · exact Or.inr mem
    | _ => exact Or.inr mem

theorem edited_setItem {a : ArrayId} (cell : C (.array a)) (i : Nat) (usable : h.Usable roots v) :
    Edited C roots h (h.setItem a i v) := by
  refine ⟨h.grows_setItem a i v, fun _ _ _ => rfl, fun b _ out => ?_, fun _ => rfl,
    fun {u w} mem => ?_⟩
  · rw [items_setItem, if_neg]
    rintro rfl
    exact out cell
  · cases u with
    | array b =>
      rw [Heap.children, items_setItem] at mem
      split at mem
      · rcases List.mem_or_eq_of_mem_set mem with mem | rfl
        · exact Or.inr mem
        · exact Or.inl usable
      · exact Or.inr mem
    | _ => exact Or.inr mem

theorem edited_pushItem {a : ArrayId} (cell : C (.array a)) (usable : h.Usable roots v) :
    Edited C roots h (h.pushItem a v) := by
  refine ⟨h.grows_pushItem a v, fun _ _ _ => rfl, fun b _ out => ?_, fun _ => rfl,
    fun {u w} mem => ?_⟩
  · rw [items_pushItem, if_neg]
    rintro ⟨rfl, -⟩
    exact out cell
  · cases u with
    | array b =>
      rw [Heap.children, items_pushItem] at mem
      split at mem
      · rcases List.mem_append.1 mem with mem | mem
        · exact Or.inr mem
        · exact Or.inl (List.mem_singleton.1 mem ▸ usable)
      · exact Or.inr mem
    | _ => exact Or.inr mem

theorem edited_addRecord {f : Fields} (usable : ∀ v ∈ f.values, h.Usable roots v) :
    Edited C roots h (h.addRecord f).2 := by
  refine ⟨(h.extends_addRecord f).grows, fun r there _ => ?_, fun _ _ _ => rfl,
    fun _ => h.attached?_addRecord .., fun {u w} mem => ?_⟩
  · rw [fields_addRecord, if_neg (Nat.ne_of_lt there)]
  · cases u with
    | record r =>
      rw [Heap.children, fields_addRecord] at mem
      split at mem
      · exact Or.inl (usable w mem)
      · exact Or.inr mem
    | _ => exact Or.inr mem

theorem edited_addArray {vs : List Value} (usable : ∀ v ∈ vs, h.Usable roots v) :
    Edited C roots h (h.addArray vs).2 := by
  refine ⟨(h.extends_addArray vs).grows, fun _ _ _ => rfl, fun a there _ => ?_, fun _ => rfl,
    fun {u w} mem => ?_⟩
  · rw [items_addArray, if_neg (Nat.ne_of_lt there)]
  · cases u with
    | array a =>
      rw [Heap.children, items_addArray] at mem
      split at mem
      · exact Or.inl (usable w mem)
      · exact Or.inr mem
    | _ => exact Or.inr mem

/-- All that a change does. -/
theorem Edit.edited (edit : Edit C roots h h') : Edited C roots h h' := by
  cases edit with
  | insert cell key usable => exact edited_insert cell key usable
  | remove cell key =>
    rw [remove_eq_insert]
    exact edited_insert cell key (h.usable_of_isScalar roots rfl)
  | setItem cell i usable => exact edited_setItem cell i usable
  | pushItem cell usable => exact edited_pushItem cell usable
  | addRecord usable => exact edited_addRecord usable
  | addArray usable => exact edited_addArray usable

namespace Edited

theorem closed (e : Edited C roots h h') (closed : h.Closed) : h'.Closed := by
  intro v _ w mem
  rcases e.children mem with usable | mem
  · exact usable.there.grows e.grows
  · by_cases there : h.Holds v
    · exact (closed v there w mem).grows e.grows
    · rw [children_of_not_holds there w mem]
      trivial

/-- No other models are held. -/
theorem held (e : Edited C roots h h') {m : ModelId} (reach : h'.Reachable roots (.model m)) :
    h.Reachable roots (.model m) := by
  -- whatever the roots lead to now led only to models that were held
  have before : ∀ u, h'.Reachable roots u → h.Reachable [u] (.model m) →
      h.Reachable roots (.model m) := by
    intro u hu
    induction hu with
    | root mem => exact .trans (.root mem)
    | child _ mem ih =>
      intro later
      rcases e.children mem with usable | mem
      · exact usable.models m later
      · exact ih (later.through mem)
  exact before _ reach (.root List.mem_cons_self)

end Edited

/-! ### Any number of changes -/

/-- What changes of containers of this kind leave as it was. -/
structure Kept (C : Value → Prop) (roots : List Value) (h h' : Heap) : Prop where
  /-- No cell is gone, and the models are the same. -/
  grows : h.Grows h'
  /-- The other records have the same fields. -/
  fields : ∀ r, h.Holds (.record r) → ¬ C (.record r) → h'.fields r = h.fields r
  /-- The other arrays have the same elements. -/
  items : ∀ a, h.Holds (.array a) → ¬ C (.array a) → h'.items a = h.items a
  /-- The same models are attached. -/
  attached : ∀ r, h'.attached? r = h.attached? r
  /-- There are no dangling references. -/
  closed : h'.Closed
  /-- The same models are held. -/
  held : ∀ m, h'.Reachable roots (.model m) ↔ h.Reachable roots (.model m)

theorem reachable_model_of_kept {m : ModelId} (grows : h.Grows h')
    (fields : ∀ r, h.Holds (.record r) → ¬ C (.record r) → h'.fields r = h.fields r)
    (items : ∀ a, h.Holds (.array a) → ¬ C (.array a) → h'.items a = h.items a)
    (raw : ∀ u, C u → u.isModel = false → ¬ h.Reachable [u] (.model m))
    (reach : h.Reachable roots (.model m)) : h'.Reachable roots (.model m) := by
  refine reach.of_children fun {u w} mem later => ?_
  have kept : u.isModel = false → ¬ C u := fun model cell => raw u cell model (later.through mem)
  by_cases there : h.Holds u
  · cases u with
    | record r => rwa [Heap.children, fields r there (kept rfl)]
    | array a => rwa [Heap.children, items a there (kept rfl)]
    | model k => rwa [Heap.children, grows.data_eq there]
    | _ => exact mem
  · -- what is not there leads nowhere
    obtain rfl := children_of_not_holds there w mem
    rcases later.cases_child with e | ⟨_, none, -⟩
    · cases e
    · cases none

theorem Edits.kept (edits : Edits C roots h h') (closed : h.Closed)
    (raw : ∀ u, C u → u.isModel = false → ∀ m, ¬ h.Reachable [u] (.model m)) :
    Kept C roots h h' := by
  induction edits with
  | refl => exact ⟨.refl h, fun _ _ _ => rfl, fun _ _ _ => rfl, fun _ => rfl, closed, fun _ => .rfl⟩
  | tail _ edit ih =>
    have e := edit.edited
    have grows := ih.grows.trans e.grows
    have fields : ∀ r, h.Holds (.record r) → ¬ C (.record r) → _ := fun r there out =>
      (e.fields r (there.grows ih.grows) out).trans (ih.fields r there out)
    have items : ∀ a, h.Holds (.array a) → ¬ C (.array a) → _ := fun a there out =>
      (e.items a (there.grows ih.grows) out).trans (ih.items a there out)
    refine ⟨grows, fields, items, fun r => (e.attached r).trans (ih.attached r), e.closed ih.closed,
      fun m => ⟨fun reach => (ih.held m).1 (e.held reach), fun reach => ?_⟩⟩
    exact reachable_model_of_kept grows fields items (fun u cell model => raw u cell model m) reach

end Overlay.Heap
