import Overlay.Proofs.Engine.Outcomes
import Overlay.Proofs.Heap.Attached
import Overlay.Proofs.Plain.Collecting

/-!
# Models made of plain data

A model is `Engine.Planted` if it was made of a fresh plain tree and if fresh plain trees were set
for its properties since then, in any mode.  What else was done meanwhile must have left its data
alone.  Such a model is `Engine.Rooted`: its record shows plain trees, of which it is no part.  If
the storage keys belong to one property each, it is `Engine.Stocked`: what it has for a property can
be read as the property declares.

* `Tree.stored_serves`, `Tree.constructed_serves` : what is stored can be read;
* `Engine.Rooted.write` : one set;
* `Engine.Planted.rooted_serves`, `Engine.Planted.stocked` : all of them.
-/

namespace Overlay

/-! ### Trees that can be read -/

namespace Tree

open Verdict

variable {s : Schema} {strict : Bool} {q : Slot} {t : TypeId} {x y : Tree} {i : Nat}

/-- Under a type that wraps, the tree is nothing or what an instance may be made around. -/
def Serves (s : Schema) (q : Slot) (y : Tree) : Prop :=
  ∀ t, q.type = .model t → (s.type t).wraps = true → y.isNothing = true ∨
    ((s.type t).allowsInstances = true ∧ y.isArray = false ∧
      ((s.type t).isStructured = true → y.isRecord = true))

theorem bare_serves {name : Option String} (type : q.type = .model t)
    (h : (bare s t name x).result = .ok y) : y.Serves s q := by
  intro t' type' wraps
  cases type.symm.trans type'
  unfold bare at h
  rw [wraps] at h
  split at h
  · rename_i nothing
    cases h
    exact Or.inl (by simpa using nothing)
  · split at h
    · cases h
    · rename_i array
      split at h
      · cases h
        exact Or.inl rfl
      · rename_i bare
        split at h
        · rename_i allowed
          cases h
          exact Or.inr ⟨allowed, Bool.eq_false_iff.2 array, fun hstr => absurd hstr bare⟩
        · cases h

/-- What is stored serves. -/
theorem stored_serves (h : (stored s strict q x).result = .ok y) : y.Serves s q := by
  intro t type wraps
  have idle : x.Still s (some q) → _ := fun still =>
    bare_serves type (Engine.stored_bare type still ▸ h) t type wraps
  have items : q.items? = none := by
    unfold Slot.items?
    rw [type]
  cases x with
  | leaf v => exact idle trivial
  | array xs => exact idle items
  | record es =>
    cases form : q.form? s with
    | none => exact idle form
    | some t' =>
      cases type.symm.trans (Slot.type_of_form? form)
      rw [stored, form] at h
      dsimp only at h
      split at h
      · rename_i allowed
        obtain ⟨fields, -, h, -⟩ := bind_eq_ok h
        cases h
        exact Or.inr ⟨allowed, rfl, fun _ => rfl⟩
      · cases h

/-- What stands under the storage keys of properties serves. -/
def FieldsServe (s : Schema) (t : TypeId) (fields : Entries) : Prop :=
  ∀ p, (s.type t).through? p.storageKey = some p → (fields.get p.storageKey).Serves s p.slot

theorem admitted_serves (keyed : (s.type t).WellKeyed) (placed : (s.type t).PlacedAt i)
    {pending : Entries} {written : List String} {fields out : Entries}
    (before : ∀ p, (s.type t).through? p.storageKey = some p →
      p.storageKey ∈ written ∨ p.storageKey ∉ pending.keys →
        (fields.get p.storageKey).Serves s p.slot)
    (h : (admitted s strict t pending written fields).result = .ok out) : FieldsServe s t out := by
  induction pending generalizing written fields with
  | nil =>
    rw [admitted] at h
    cases h
    exact fun p hp => before p hp (Or.inr List.not_mem_nil)
  | cons e rest ih =>
    obtain ⟨key, x⟩ := e
    rw [admitted_eq] at h
    -- an entry that goes through no property, or through another one, is none of this property's
    have unseen : ∀ {p : Property}, (s.type t).through? p.storageKey = some p →
        (s.type t).through? key ≠ some p → p.storageKey ∈ written ∨ p.storageKey ∉ Entries.keys rest →
          p.storageKey ≠ key ∧ (fields.get p.storageKey).Serves s p.slot := by
      intro p hp other there
      have ne : p.storageKey ≠ key := fun e => other (e ▸ hp)
      refine ⟨ne, before p hp (there.imp_right fun out hmem => ?_)⟩
      exact (List.mem_cons.1 hmem).elim ne out
    cases hp' : (s.type t).through? key with
    | none =>
      rw [hp'] at h unseen
      have passed : ∀ p, (s.type t).through? p.storageKey = some p →
          p.storageKey ∈ written ∨ p.storageKey ∉ Entries.keys rest →
            (fields.get p.storageKey).Serves s p.slot :=
        fun p hp there => (unseen hp nofun there).2
      dsimp only at h
      split at h
      · exact ih passed h
      · obtain ⟨_, -, h, -⟩ := bind_eq_ok h
        exact ih passed h
    | some p' =>
      rw [hp'] at h unseen
      obtain ⟨y, hy, h, -⟩ := bind_eq_ok h
      refine ih (fun p hp there => ?_) h
      rw [Entries.get_put]
      split
      · rename_i same
        obtain rfl := keyed.eq_of_storageKey placed (ModelType.through?_eq_some.1 hp).2
          (ModelType.through?_eq_some.1 hp').2 same
        exact stored_serves hy
      · rename_i ne
        obtain ⟨away, serves⟩ := unseen hp (fun e => ne (Option.some.inj e ▸ rfl))
          (there.imp_left fun hmem => (List.mem_cons.1 hmem).resolve_left ne)
        rw [Entries.get_reveal (Or.inr (Or.inr away))]
        exact serves

/-- A new model is around fields that serve. -/
theorem constructed_serves (keyed : (s.type t).WellKeyed) (placed : (s.type t).PlacedAt i)
    (structured : (s.type t).isStructured = true) {name : Option String} {fields : Entries}
    (h : (constructed s strict name t x).result = .ok (.record fields)) : FieldsServe s t fields := by
  have empty : FieldsServe s t [] := fun _ _ _ _ _ => Or.inl rfl
  unfold constructed at h
  rw [structured, if_pos rfl] at h
  split at h
  · cases h
  · split at h
    · rename_i es
      obtain ⟨out, admitted, h, -⟩ := bind_eq_ok h
      cases h
      refine admitted_serves keyed placed (fun p _ there => ?_) admitted
      rw [Entries.get_of_not_mem (there.resolve_left List.not_mem_nil)]
      exact fun _ _ _ => Or.inl rfl
    · split at h
      · cases h
        exact empty
      · obtain ⟨_, -, h, -⟩ := bind_eq_ok h
        cases h
        exact empty

end Tree

namespace Heap

variable {h h' : Heap} {P : Value → Prop} {vs : List Value} {xs : List Tree}

namespace Shows

theorem with_reachable (sh : h.Shows P vs xs) :
    h.Shows (fun u => P u ∧ h.Reachable vs u) vs xs := by
  have below : ∀ {v u : Value} {vs}, h.Reachable (h.children v) u → h.Reachable (v :: vs) u :=
    fun reach => reach.of_roots fun _ mem => .child (.root List.mem_cons_self) mem
  have beside : ∀ {v u : Value} {vs}, h.Reachable vs u → h.Reachable (v :: vs) u :=
    fun reach => reach.of_roots fun _ mem => .root (List.mem_cons_of_mem _ mem)
  induction sh with
  | nil => exact .nil
  | leaf plain _ ih => exact .leaf plain (ih.mono fun _ hu => ⟨hu.1, beside hu.2⟩)
  | array mem _ _ ih₁ ih₂ =>
    exact .array ⟨mem, .root List.mem_cons_self⟩ (ih₁.mono fun _ hu => ⟨hu.1, below hu.2⟩)
      (ih₂.mono fun _ hu => ⟨hu.1, beside hu.2⟩)
  | record mem keys _ _ ih₁ ih₂ =>
    exact .record ⟨mem, .root List.mem_cons_self⟩ keys (ih₁.mono fun _ hu => ⟨hu.1, below hu.2⟩)
      (ih₂.mono fun _ hu => ⟨hu.1, beside hu.2⟩)

theorem of_same (sh : h.Shows P vs xs) (fields : ∀ r, P (.record r) → h'.fields r = h.fields r)
    (items : ∀ a, P (.array a) → h'.items a = h.items a) : h'.Shows P vs xs := by
  induction sh with
  | nil => exact .nil
  | leaf plain _ ih => exact .leaf plain ih
  | array mem _ _ ih₁ ih₂ => exact .array mem (items _ mem ▸ ih₁) ih₂
  | record mem keys _ _ ih₁ ih₂ =>
    have same := fields _ mem
    exact .record mem (same ▸ keys) (same ▸ ih₁) ih₂

end Shows

/-- The value is a plain tree with these cells, and the model leads to none of them. -/
structure FreshFor (h : Heap) (m : ModelId) (v : Value) (cells : List Value) : Prop where
  /-- It is a tree. -/
  trees : h.Trees [v] cells
  /-- Its cells are all different. -/
  nodup : cells.Nodup
  /-- They are there. -/
  held : ∀ u ∈ cells, h.Holds u
  /-- They are no part of the model. -/
  apart : ∀ u ∈ cells, ¬ h.Reachable [.model m] u

end Heap

namespace Engine

open Heap

variable {s : Schema} {t : TypeId} {m : ModelId} {r : RecordId} {fields : Entries} {h h' : Heap}

/-- A model of the type was made of a fresh plain tree, and then properties of it were set to fresh
plain trees, in any mode.  Each time other values may have been in use. -/
inductive Planted (s : Schema) (t : TypeId) (m : ModelId) : Heap → Prop
  | create {c : Context} {st st' : State} {data : Option Value} {cells : List Value}
      (types : c.schema = s) (alone : st.options.property = none)
      (trees : st.heap.Trees [data.getD .undefined] cells) (nodup : cells.Nodup)
      (held : ∀ v ∈ cells, st.heap.Holds v) (run : Engine.create t data c st = (.ok m, st')) :
      Planted s t m st'.heap
  | set {c : Context} {st st' : State} {name : String} {v : Value} {cells : List Value}
      (before : Planted s t m st.heap) (types : c.schema = s) (alone : st.options.property = none)
      (fresh : st.heap.FreshFor m v cells) (run : Engine.set m name v c st = (.ok (), st')) :
      Planted s t m st'.heap
  /-- Anything else was done, but for changing a record or an array that the model leads to. -/
  | pass {h h' : Heap} (before : Planted s t m h) (grows : h.Grows h')
      (fields : ∀ r, h.Reachable [.model m] (.record r) → h'.fields r = h.fields r)
      (items : ∀ a, h.Reachable [.model m] (.array a) → h'.items a = h.items a) : Planted s t m h'

/-- The model is one of the type around the record, which shows the fields. -/
structure Rooted (t : TypeId) (m : ModelId) (r : RecordId) (fields : Entries)
    (h : Heap) : Prop where
  /-- The model is there. -/
  model : h.Holds (.model m)
  /-- So is the record. -/
  held : h.Holds (.record r)
  /-- The model is an instance of the type. -/
  type : h.type m = t
  /-- It wraps the record. -/
  data : h.data m = .record r
  /-- The record shows the keys. -/
  keys : (h.fields r).keys = fields.keys
  /-- It shows the trees, and is no part of them. -/
  shows : h.Shows (Beside h r) (h.fields r).values (fields.map Prod.snd)

namespace Rooted

theorem reachable (a : Rooted t m r fields h) : h.Reachable [.model m] (.record r) ∧
    h.Shows (fun u => Beside h r u ∧ h.Reachable [.model m] u) (h.fields r).values
      (fields.map Prod.snd) := by
  have record : h.Reachable [.model m] (.record r) :=
    .child (.root List.mem_cons_self) (List.mem_singleton.2 a.data.symm)
  exact ⟨record, a.shows.with_reachable.mono fun u hu =>
    ⟨hu.1, hu.2.of_roots fun _ mem => .child record mem⟩⟩

theorem apart (a : Rooted t m r fields h) {cells : List Value}
    (apart : ∀ u ∈ cells, ¬ h.Reachable [.model m] u) : .record r ∉ cells ∧
      h.Shows (fun u => Beside h r u ∧ u ∉ cells) (h.fields r).values (fields.map Prod.snd) :=
  ⟨fun mem => apart _ mem a.reachable.1,
    a.reachable.2.mono fun u hu => ⟨hu.1, fun mem => apart u mem hu.2⟩⟩

theorem pass (a : Rooted t m r fields h) (grows : h.Grows h')
    (same : ∀ r, h.Reachable [.model m] (.record r) → h'.fields r = h.fields r)
    (items : ∀ a, h.Reachable [.model m] (.array a) → h'.items a = h.items a) :
    Rooted t m r fields h' := by
  obtain ⟨record, shows⟩ := a.reachable
  have own := same r record
  refine ⟨a.model.grows grows, a.held.grows grows, (grows.type_eq a.model).trans a.type,
    (grows.data_eq a.model).trans a.data, own ▸ a.keys, ?_⟩
  rw [own]
  exact (shows.of_same (fun r hr => same r hr.2) fun a ha => items a ha.2).mono fun u hu =>
    ⟨hu.1.1.grows grows, hu.1.2⟩

/-- The model stays so when what was stored of a fresh value is written under the storage key of a
property. -/
theorem write (a : Rooted t m r fields h) {p : Property} {v w : Value} {x y : Tree}
    {cells : List Value} (d : h.ChangesOnly h' cells) (held : ∀ u ∈ cells, h.Holds u)
    (fresh : ∀ u ∈ cells, ¬ h.Reachable [.model m] u)
    (settled : Settled s (fun _ => False) cells p.slot v x w y h') :
    Rooted t m r (Entries.put p.storageKey y fields) (h'.insert r p.storageKey w) := by
  obtain ⟨out, shows⟩ := a.apart fresh
  have grows : h.Grows (h'.insert r p.storageKey w) := d.grows.trans (grows_insert ..)
  obtain ⟨keys, shows⟩ := shows_write p.storageKey a.held a.keys shows d
    (fun u hu => ⟨hu.1.1, fun mem => (List.mem_cons.1 mem).elim hu.1.2 hu.2⟩)
    (fun u hu => ⟨(held u hu).grows d.grows, fun e => out (e ▸ hu)⟩) settled
  refine ⟨a.model.grows grows, a.held.grows grows, (grows.type_eq a.model).trans a.type,
    (grows.data_eq a.model).trans a.data, keys, shows.mono fun u hu => ?_⟩
  rcases hu with hu | hu
  · exact ⟨hu.1.1.grows grows, hu.1.2⟩
  · exact ⟨(held u hu).grows grows, fun e => out (e ▸ hu)⟩

theorem shows_data (a : Rooted t m r fields h) :
    h.Shows (fun u => h.Holds u ∧ h.Reachable [.model m] u) [h.data m] [.record fields] := by
  obtain ⟨record, shows⟩ := a.reachable
  rw [a.data]
  exact .record ⟨a.held, record⟩ a.keys (shows.mono fun _ hu => ⟨hu.1.1, hu.2⟩) .nil

end Rooted

/-- The model is one of the type around the record, and stands for fields that can be read. -/
structure Stocked (s : Schema) (t : TypeId) (m : ModelId) (r : RecordId) (fields : Entries)
    (h : Heap) : Prop where
  /-- The model is there. -/
  model : h.Holds (.model m)
  /-- So is the record. -/
  held : h.Holds (.record r)
  /-- The model is an instance of the type. -/
  type : h.type m = t
  /-- It wraps the record. -/
  data : h.data m = .record r
  /-- The record shows the keys. -/
  keys : (h.fields r).keys = fields.keys
  /-- It shows the trees, and is no part of them. -/
  shows : h.Shows (Beside h r) (h.fields r).values (fields.map Prod.snd)
  /-- They can be read. -/
  serves : Tree.FieldsServe s t fields

namespace Stocked

theorem rooted (a : Stocked s t m r fields h) : Rooted t m r fields h :=
  ⟨a.model, a.held, a.type, a.data, a.keys, a.shows⟩

theorem apart (a : Stocked s t m r fields h) {cells : List Value}
    (apart : ∀ u ∈ cells, ¬ h.Reachable [.model m] u) : .record r ∉ cells ∧
      h.Shows (fun u => Beside h r u ∧ u ∉ cells) (h.fields r).values (fields.map Prod.snd) :=
  a.rooted.apart apart

end Stocked

/-- Planted models show fields, which can be read if the storage keys belong to one property
each. -/
theorem Planted.rooted_serves (hs : s.Stratified) (free : s.Free (.model t))
    (structured : (s.type t).isStructured = true) (planted : Planted s t m h) :
    ∃ r fields, Rooted t m r fields h ∧
      ((s.type t).WellKeyed → Tree.FieldsServe s t fields) := by
  have placed := hs.placedAt t
  induction planted with
  | @create c st st' data cells types alone trees nodup held run =>
    obtain ⟨x, sh⟩ := trees.shows_one
    obtain ⟨y, made, -, -, -, standing⟩ :=
      (create_judgedFrom hs free types trees nodup held sh).verdict_of_ok
        (create_orderly hs (Schema.index_lt_of_isStructured structured) free.calm data)
        types alone run
    obtain ⟨r, fields, rfl, stands⟩ := standing structured
    exact ⟨r, fields, ⟨stands.model, stands.held, stands.type, stands.data, stands.keys,
      stands.shows⟩, fun keyed => Tree.constructed_serves keyed placed structured made⟩
  | @set c st st' name v cells before types alone fresh run ih =>
    obtain ⟨r, fields, a, serves⟩ := ih
    obtain ⟨x, sh⟩ := fresh.trees.shows_one
    cases hp : (s.type t).property? name with
    | none =>
      rw [← a.type, ← types] at hp
      unfold Engine.set at run
      rw [bind_run, property_missing hp] at run
      cases run
    | some p =>
      have there : (c.schema.type (st.heap.type m)).property? name = some p := by
        rw [types, a.type]
        exact hp
      have freeProp := free.property hs hp
      rw [set_declared there] at run
      obtain ⟨y, stored, -, -, -, w, h', d, settled, e⟩ :=
        (setProperty_wroteFrom hs types freeProp a.model a.data fresh.trees fresh.nodup fresh.held
          sh).verdict_of_ok (setProperty_orderly hs freeProp.calmBelow m v) types alone run
      rw [e]
      refine ⟨r, _, a.write d fresh.held fresh.apart settled, fun keyed q hq => ?_⟩
      rw [Entries.get_put]
      split
      · rename_i same
        obtain rfl := keyed.eq_of_storageKey placed (ModelType.through?_eq_some.1 hq).2 hp same
        exact Tree.stored_serves stored
      · exact serves keyed q hq
  | pass _ grows fields items ih =>
    obtain ⟨r, fs, a, serves⟩ := ih
    exact ⟨r, fs, a.pass grows fields items, serves⟩

/-- So planted models of a type whose storage keys belong to one property each are stocked. -/
theorem Planted.stocked (hs : s.Stratified) (free : s.Free (.model t))
    (keyed : (s.type t).WellKeyed) (structured : (s.type t).isStructured = true)
    (planted : Planted s t m h) : ∃ r fields, Stocked s t m r fields h := by
  obtain ⟨r, fields, a, serves⟩ := planted.rooted_serves hs free structured
  exact ⟨r, fields, a.model, a.held, a.type, a.data, a.keys, a.shows, serves keyed⟩

end Engine

end Overlay
