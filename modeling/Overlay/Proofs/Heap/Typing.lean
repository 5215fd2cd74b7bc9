import Overlay.Engine.Coerce
import Overlay.Proofs.Heap.Trees
import Overlay.Proofs.Schema.Keys

/-!
# Typed cells

A `Typing` says which records hold the data of models of which type, and which arrays hold elements
of which types.  A record that stands under a reserved key is not checked by anything, and is kept
apart for good.  What an operation does to plain trees is `Typing.Advances`: it may give types to
cells of the trees and to new ones, and all typed cells are described by the typing before and
after, wherever it stops.

* `Typing.Describes` : the typed cells hold what their types say, and a model attached to a typed
  record is an instance of its type around it;
* `Typing.Advances.trans` : one step after another;
* `Typing.Ready` : plain trees of cells without a type.
-/

namespace Overlay

/-- What a record is for. -/
inductive Role
  /-- It holds the data of a model of the type. -/
  | data (t : TypeId)
  /-- It stands under a reserved key, and nothing is known of it. -/
  | loose

/-- What the cells are for that an operation is done with. -/
structure Typing where
  /-- The role of a record. -/
  record : RecordId → Option Role
  /-- The types of the elements of an array, of their elements, and so on. -/
  array : ArrayId → Option (DataType × List DataType)

namespace Typing

/-- No cell has a type. -/
def empty : Typing := ⟨fun _ => none, fun _ => none⟩

/-- Gives a role to a record. -/
def assign (W : Typing) (r : RecordId) (role : Role) : Typing :=
  { W with record := fun r' => if r' = r then some role else W.record r' }

/-- Gives types to the elements of an array. -/
def assignItems (W : Typing) (a : ArrayId) (t : DataType) (ts : List DataType) : Typing :=
  { W with array := fun a' => if a' = a then some (t, ts) else W.array a' }

/-- The value can be the data of a model of the type: a record of that role or, for a type without
properties, something else than a record. -/
def Carries (W : Typing) (s : Schema) (t : TypeId) (v : Value) : Prop :=
  ((s.type t).isStructured = true → v.isRecord = true) ∧
    ∀ r, v = .record r → W.record r = some (.data t)

/-- The value is of the type, and its elements are of these. -/
def Has (W : Typing) (s : Schema) : DataType → List DataType → Value → Prop
  | .builtin .array, t :: ts, v => ∃ a, v = .array a ∧ W.array a = some (t, ts)
  | .builtin b, _, v => v.isModel = false ∧ b.accepts v = true
  | .model t, _, v => v.isModel = false ∧ ((s.type t).wraps = true → W.Carries s t v)
  | .adapter _, _, _ => False

/-- The value is of the type, or there is none. -/
def Fits (W : Typing) (s : Schema) (t : DataType) (ts : List DataType) (v : Value) : Prop :=
  v.isNothing = true ∨ W.Has s t ts v

/-- Nothing has checked the value, but it is no model and no record of a type. -/
def Loose (W : Typing) (v : Value) : Prop :=
  v.isModel = false ∧ ∀ r, v = .record r → W.record r = some .loose

/-- The value may be stored for the property: it is of its type or, under a reserved key, loose. -/
def Suits (W : Typing) (s : Schema) (p : Property) (v : Value) : Prop :=
  W.Fits s p.type p.elements v ∨ (isReserved p.storageKey = true ∧ W.Loose v)

/-- What is stored for each property suits it. -/
def Fields (W : Typing) (s : Schema) (t : TypeId) (f : Overlay.Fields) : Prop :=
  ∀ key p, (s.type t).property? key = some p → W.Suits s p (f.get p.storageKey)

/-- The cells with a role or a type are there and hold what it says. -/
structure Describes (W : Typing) (s : Schema) (h : Heap) : Prop where
  /-- A record with a role is there. -/
  recordHeld : ∀ r role, W.record r = some role → h.Holds (.record r)
  /-- A typed array is there. -/
  arrayHeld : ∀ a e, W.array a = some e → h.Holds (.array a)
  /-- The fields of a model's record suit their properties. -/
  fields : ∀ r t, W.record r = some (.data t) → W.Fields s t (h.fields r)
  /-- The elements of a typed array are of their type. -/
  items : ∀ a t ts, W.array a = some (t, ts) → ∀ v ∈ h.items a, W.Fits s t ts v
  /-- A model attached to such a record wraps it and is an instance of exactly that type. -/
  attached : ∀ r t m, W.record r = some (.data t) → h.attached? r = some m →
    h.Holds (.model m) ∧ h.data m = .record r ∧ h.type m = t

/-- The other typing has the same roles and types, and perhaps more. -/
structure Extends (W W' : Typing) : Prop where
  /-- The records keep their roles. -/
  record : ∀ r role, W.record r = some role → W'.record r = some role
  /-- The arrays keep their types. -/
  array : ∀ a e, W.array a = some e → W'.array a = some e

/-- No cell of the list has a role or a type. -/
structure Untyped (W : Typing) (cells : List Value) : Prop where
  /-- No record has. -/
  record : ∀ r, .record r ∈ cells → W.record r = none
  /-- No array has. -/
  array : ∀ a, .array a ∈ cells → W.array a = none

/-- A step from one typed heap to another that touches the cells of a list and new ones only. -/
structure Advances (s : Schema) (cells : List Value) (W : Typing) (h : Heap) (W' : Typing)
    (h' : Heap) : Prop where
  /-- The other cells are the same. -/
  changes : h.ChangesOnly h' cells
  /-- No role and no type is lost. -/
  more : W.Extends W'
  /-- The other records have the roles that they had. -/
  records : ∀ r, h.Holds (.record r) → .record r ∉ cells → W'.record r = W.record r
  /-- The other arrays have the types that they had. -/
  arrays : ∀ a, h.Holds (.array a) → .array a ∉ cells → W'.array a = W.array a
  /-- The typed cells hold what their types say. -/
  describes : W'.Describes s h'

/-- The values are plain trees of cells that are there, all different, and have no types. -/
structure Ready (W : Typing) (h : Heap) (vs cells : List Value) : Prop where
  /-- They are trees with these cells. -/
  trees : h.Trees vs cells
  /-- No cell is shared. -/
  nodup : cells.Nodup
  /-- The cells are there. -/
  held : ∀ v ∈ cells, h.Holds v
  /-- None of them has a type. -/
  untyped : W.Untyped cells

variable {s : Schema} {W W' W'' : Typing} {h h' h'' : Heap} {cells cells' vs vs' : List Value}

/-! ### More types -/

theorem Extends.refl (W : Typing) : W.Extends W := ⟨fun _ _ h => h, fun _ _ h => h⟩

theorem Extends.trans (e : W.Extends W') (e' : W'.Extends W'') : W.Extends W'' :=
  ⟨fun r t h => e'.record r t (e.record r t h), fun a x h => e'.array a x (e.array a x h)⟩

theorem extends_assign {r : RecordId} (hr : W.record r = none) (role : Role) :
    W.Extends (W.assign r role) := by
  refine ⟨fun r' role' h => ?_, fun _ _ h => h⟩
  have : r' ≠ r := by
    rintro rfl
    cases hr.symm.trans h
  simp only [assign, if_neg this, h]

theorem extends_assignItems {a : ArrayId} (ha : W.array a = none) (t : DataType)
    (ts : List DataType) : W.Extends (W.assignItems a t ts) := by
  refine ⟨fun _ _ h => h, fun a' e h => ?_⟩
  have : a' ≠ a := by
    rintro rfl
    cases ha.symm.trans h
  simp only [assignItems, if_neg this, h]

theorem Has.mono (e : W.Extends W') {t : DataType} {ts : List DataType} {v : Value}
    (hv : W.Has s t ts v) : W'.Has s t ts v := by
  unfold Has at hv ⊢
  split at hv
  · obtain ⟨a, rfl, ha⟩ := hv
    exact ⟨a, rfl, e.array _ _ ha⟩
  · exact hv
  · refine ⟨hv.1, fun hw => ⟨(hv.2 hw).1, fun r hr => ?_⟩⟩
    exact e.record _ _ ((hv.2 hw).2 r hr)
  · exact hv

theorem Fits.mono (e : W.Extends W') {t : DataType} {ts : List DataType} {v : Value}
    (hv : W.Fits s t ts v) : W'.Fits s t ts v :=
  hv.imp_right (Has.mono e)

theorem Suits.mono (e : W.Extends W') {p : Property} {v : Value} (hv : W.Suits s p v) :
    W'.Suits s p v :=
  hv.imp (Fits.mono e) fun ⟨hp, hm, hr⟩ => ⟨hp, hm, fun r h => e.record _ _ (hr r h)⟩

theorem Fields.mono (e : W.Extends W') {t : TypeId} {f : Overlay.Fields} (hf : W.Fields s t f) :
    W'.Fields s t f :=
  fun key p hp => (hf key p hp).mono e

theorem Has.not_model {t : DataType} {ts : List DataType} {v : Value} (hv : W.Has s t ts v) :
    v.isModel = false := by
  unfold Has at hv
  split at hv
  · obtain ⟨a, rfl, -⟩ := hv
    rfl
  · exact hv.1
  · exact hv.1
  · exact hv.elim

theorem Fits.not_model {t : DataType} {ts : List DataType} {v : Value} (hv : W.Fits s t ts v) :
    v.isModel = false := by
  rcases hv with hv | hv
  · cases v <;> first | rfl | cases hv
  · exact hv.not_model

theorem Suits.not_model {p : Property} {v : Value} (hv : W.Suits s p v) : v.isModel = false :=
  hv.elim (·.not_model) fun ⟨_, hl⟩ => hl.1

theorem Suits.fits {p : Property} {v : Value} (hv : W.Suits s p v)
    (hp : isReserved p.storageKey = false) : W.Fits s p.type p.elements v :=
  hv.resolve_right fun ⟨hr, _⟩ => Bool.noConfusion (hr.symm.trans hp)

theorem describes_empty (s : Schema) (h : Heap) : empty.Describes s h :=
  ⟨nofun, nofun, nofun, nofun, nofun⟩

theorem untyped_nil (W : Typing) : W.Untyped [] :=
  ⟨fun _ h => absurd h List.not_mem_nil, fun _ h => absurd h List.not_mem_nil⟩

theorem untyped_record {r : RecordId} (hr : W.record r = none) : W.Untyped [.record r] := by
  refine ⟨fun r' h => ?_, fun a h => ?_⟩
  · cases List.mem_singleton.1 h
    exact hr
  · cases List.mem_singleton.1 h

theorem untyped_array {a : ArrayId} (ha : W.array a = none) : W.Untyped [.array a] := by
  refine ⟨fun r h => ?_, fun a' h => ?_⟩
  · cases List.mem_singleton.1 h
  · cases List.mem_singleton.1 h
    exact ha

/-! ### Steps -/

/-- A change that touches untyped cells only keeps the heap described. -/
theorem Describes.of_changesOnly (d : W.Describes s h) (u : W.Untyped cells)
    (c : h.ChangesOnly h' cells) : W.Describes s h' := by
  have record : ∀ r role, W.record r = some role → .record r ∉ cells := fun r role hr hn =>
    nomatch (u.record r hn).symm.trans hr
  have array : ∀ a e, W.array a = some e → .array a ∉ cells := fun a e ha hn =>
    nomatch (u.array a hn).symm.trans ha
  refine ⟨fun r role hr => (d.recordHeld r role hr).grows c.grows,
    fun a e ha => (d.arrayHeld a e ha).grows c.grows, fun r t hr => ?_, fun a t ts ha => ?_,
    fun r t m hr hm => ?_⟩
  · rw [c.fields r (d.recordHeld r _ hr) (record r _ hr)]
    exact d.fields r t hr
  · rw [c.items a (d.arrayHeld a _ ha) (array a _ ha)]
    exact d.items a t ts ha
  · rw [c.attached r (d.recordHeld r _ hr) (record r _ hr)] at hm
    obtain ⟨held, data, type⟩ := d.attached r t m hr hm
    exact ⟨held.grows c.grows, (c.grows.data_eq held).trans data, (c.grows.type_eq held).trans type⟩

namespace Advances

theorem refl (d : W.Describes s h) (cells : List Value) : Advances s cells W h W h :=
  ⟨.refl h cells, .refl W, fun _ _ _ => rfl, fun _ _ _ => rfl, d⟩

theorem of_changesOnly (d : W.Describes s h) (u : W.Untyped cells) (c : h.ChangesOnly h' cells) :
    Advances s cells W h W h' :=
  ⟨c, .refl W, fun _ _ _ => rfl, fun _ _ _ => rfl, d.of_changesOnly u c⟩

theorem of_extends (d : W.Describes s h) (e : h.Extends h') (cells : List Value) :
    Advances s cells W h W h' :=
  ⟨e.changesOnly cells, .refl W, fun _ _ _ => rfl, fun _ _ _ => rfl,
    d.of_changesOnly (untyped_nil W) (e.changesOnly [])⟩

/-- A step may go on with the cells of the list and with cells that were not there before. -/
theorem trans (a : Advances s cells W h W' h') (a' : Advances s cells' W' h' W'' h'')
    (sub : ∀ v ∈ cells', v ∈ cells ∨ ¬ h.Holds v) : Advances s cells W h W'' h'' := by
  have untouched : ∀ {v : Value}, h.Holds v → v ∉ cells → v ∉ cells' := fun hv hn hv' =>
    (sub _ hv').elim hn fun hn' => hn' hv
  refine ⟨a.changes.trans a'.changes sub, a.more.trans a'.more, fun r hr hn => ?_,
    fun x hx hn => ?_, a'.describes⟩
  · rw [a'.records r (hr.grows a.changes.grows) (untouched hr hn), a.records r hr hn]
  · rw [a'.arrays x (hx.grows a.changes.grows) (untouched hx hn), a.arrays x hx hn]

theorem mono (a : Advances s cells W h W' h') (sub : ∀ v ∈ cells, v ∈ cells' ∨ ¬ h.Holds v) :
    Advances s cells' W h W' h' := by
  have untouched : ∀ {v : Value}, h.Holds v → v ∉ cells' → v ∉ cells := fun hv hn hv' =>
    (sub _ hv').elim hn fun hn' => hn' hv
  exact ⟨a.changes.mono sub, a.more, fun r hr hn => a.records r hr (untouched hr hn),
    fun x hx hn => a.arrays x hx (untouched hx hn), a.describes⟩

/-- A record gets a role.  To hold the data of a type, its fields have to suit their properties. -/
theorem assign (d : W.Describes s h) {r : RecordId} {role : Role} (hc : .record r ∈ cells)
    (held : h.Holds (.record r)) (hn : W.record r = none)
    (hf : ∀ t, role = .data t → W.Fields s t (h.fields r))
    (hm : ∀ t m, role = .data t → h.attached? r = some m →
      h.Holds (.model m) ∧ h.data m = .record r ∧ h.type m = t) :
    Advances s cells W h (W.assign r role) h := by
  have more := extends_assign hn role
  -- the record itself, or one that had its role before
  have which : ∀ {r' role'}, (W.assign r role).record r' = some role' →
      (r' = r ∧ role = role') ∨ W.record r' = some role' := by
    intro r' role' h'
    simp only [Typing.assign] at h'
    split at h'
    · cases h'
      exact Or.inl ⟨‹_›, rfl⟩
    · exact Or.inr h'
  refine ⟨.refl h cells, more, fun r' _ hr' => ?_, fun _ _ _ => rfl, fun r' role' h' => ?_,
    d.arrayHeld, fun r' t h' => ?_, fun a τ ts ha v hv => (d.items a τ ts ha v hv).mono more,
    fun r' t m h' ha => ?_⟩
  · have : r' ≠ r := fun e => hr' (e ▸ hc)
    simp only [Typing.assign, if_neg this]
  · rcases which h' with ⟨rfl, -⟩ | h'
    · exact held
    · exact d.recordHeld r' role' h'
  · rcases which h' with ⟨rfl, e⟩ | h'
    · exact (hf t e).mono more
    · exact (d.fields r' t h').mono more
  · rcases which h' with ⟨rfl, e⟩ | h'
    · exact hm t m e ha
    · exact d.attached r' t m h' ha

theorem assignItems (d : W.Describes s h) {a : ArrayId} {t : DataType} {ts : List DataType}
    (hc : .array a ∈ cells) (held : h.Holds (.array a)) (hn : W.array a = none)
    (hi : ∀ v ∈ h.items a, W.Fits s t ts v) :
    Advances s cells W h (W.assignItems a t ts) h := by
  have more := extends_assignItems hn t ts
  have which : ∀ {a' e'}, (W.assignItems a t ts).array a' = some e' →
      (a' = a ∧ e' = (t, ts)) ∨ W.array a' = some e' := by
    intro a' e' h'
    simp only [Typing.assignItems] at h'
    split at h'
    · cases h'
      exact Or.inl ⟨‹_›, rfl⟩
    · exact Or.inr h'
  refine ⟨.refl h cells, more, fun _ _ _ => rfl, fun a' _ ha' => ?_, d.recordHeld,
    fun a' e' h' => ?_, fun r t hr => (d.fields r t hr).mono more, fun a' τ ts' h' v hv => ?_,
    d.attached⟩
  · have : a' ≠ a := fun e => ha' (e ▸ hc)
    simp only [Typing.assignItems, if_neg this]
  · rcases which h' with ⟨rfl, -⟩ | h'
    · exact held
    · exact d.arrayHeld a' e' h'
  · rcases which h' with ⟨rfl, e⟩ | h'
    · cases e
      exact (hi v hv).mono more
    · exact (d.items a' τ ts' h' v hv).mono more

end Advances

/-- A field of a model's record may be overwritten with a value of the type of its property. -/
theorem Describes.insert (d : W.Describes s h) {r : RecordId} {t : TypeId} {i : Nat}
    {key : String} {p : Property} {v : Value} (hr : W.record r = some (.data t))
    (hk : (s.type t).WellKeyed) (hs : (s.type t).PlacedAt i)
    (hp : (s.type t).property? key = some p) (hv : W.Fits s p.type p.elements v) :
    W.Describes s (h.insert r p.storageKey v) := by
  have grows := h.grows_insert r p.storageKey v
  refine ⟨fun r' role h' => (d.recordHeld r' role h').grows grows,
    fun a e ha => (d.arrayHeld a e ha).grows grows, fun r' t' h' => ?_, d.items,
    fun r' t' m h' ha => ?_⟩
  · rw [Heap.fields_insert]
    split
    · rename_i hrr
      obtain ⟨rfl, -⟩ := hrr
      cases hr.symm.trans h'
      intro key' q hq
      rw [Fields.get_insert]
      split
      · rename_i e
        cases hk.eq_of_storageKey hs hq hp e
        exact Or.inl hv
      · exact d.fields r' t h' key' q hq
    · exact d.fields r' t' h'
  · rw [Heap.attached?_insert] at ha
    exact d.attached r' t' m h' ha

/-- A model may be attached to a record if it is a model of the record's type around it. -/
theorem Describes.attach (d : W.Describes s h) {r : RecordId} {m : ModelId}
    (hm : ∀ t, W.record r = some (.data t) →
      h.Holds (.model m) ∧ h.data m = .record r ∧ h.type m = t) :
    W.Describes s (h.setWrapper r (some m)) := by
  have grows := h.grows_setWrapper r (some m)
  refine ⟨fun r' role h' => (d.recordHeld r' role h').grows grows,
    fun a e ha => (d.arrayHeld a e ha).grows grows, fun r' t h' => ?_, d.items,
    fun r' t m' h' ha => ?_⟩
  · rw [Heap.fields_setWrapper]
    exact d.fields r' t h'
  · rw [Heap.attached?_setWrapper] at ha
    split at ha
    · rename_i hrr
      obtain ⟨rfl, -⟩ := hrr
      cases ha
      exact hm t h'
    · exact d.attached r' t m' h' ha

/-! ### Untouched trees -/

namespace Ready

theorem advance (y : W.Ready h vs cells) (a : Advances s cells' W h W' h')
    (hd : ∀ v ∈ cells, v ∉ cells') : W'.Ready h' vs cells where
  trees := y.trees.of_changesOnly a.changes fun v hv => ⟨y.held v hv, hd v hv⟩
  nodup := y.nodup
  held := fun v hv => (y.held v hv).grows a.changes.grows
  untyped := ⟨fun r hr => (a.records r (y.held _ hr) (hd _ hr)).trans (y.untyped.record r hr),
    fun x hx => (a.arrays x (y.held _ hx) (hd _ hx)).trans (y.untyped.array x hx)⟩

theorem split {v : Value} (y : W.Ready h (v :: vs) cells) :
    ∃ cells₁ cells₂, cells = cells₁ ++ cells₂ ∧ W.Ready h [v] cells₁ ∧ W.Ready h vs cells₂ ∧
      ∀ w ∈ cells₂, w ∉ cells₁ := by
  obtain ⟨cells₁, cells₂, rfl, t₁, t₂⟩ := y.trees.split
  obtain ⟨n₁, n₂, hd⟩ := List.nodup_append.1 y.nodup
  have left : ∀ {w : Value}, w ∈ cells₁ → w ∈ cells₁ ++ cells₂ := List.mem_append_left _
  have right : ∀ {w : Value}, w ∈ cells₂ → w ∈ cells₁ ++ cells₂ := List.mem_append_right _
  refine ⟨cells₁, cells₂, rfl, ⟨t₁, n₁, fun w hw => y.held w (left hw), ?_⟩,
    ⟨t₂, n₂, fun w hw => y.held w (right hw), ?_⟩, fun w hw hw' => hd w hw' w hw rfl⟩
  · exact ⟨fun r hr => y.untyped.record r (left hr), fun a ha => y.untyped.array a (left ha)⟩
  · exact ⟨fun r hr => y.untyped.record r (right hr), fun a ha => y.untyped.array a (right ha)⟩

theorem addRecord (d : W.Describes s h) :
    W.Ready (h.addRecord .empty).2 [.record (h.addRecord .empty).1]
      [.record (h.addRecord .empty).1] := by
  have new : ¬ h.Holds (.record (h.addRecord .empty).1) := Nat.lt_irrefl _
  have fields : ((h.addRecord .empty).2.fields (h.addRecord .empty).1).values = [] := by
    rw [Heap.fields_addRecord]
    exact congrArg Fields.values (if_pos rfl)
  have inside : (h.addRecord .empty).2.Trees
      ((h.addRecord .empty).2.fields (h.addRecord .empty).1).values [] := by
    rw [fields]
    exact .nil
  have free : (h.addRecord .empty).2.attached? (h.addRecord .empty).1 = none := by
    rw [Heap.attached?_addRecord]
    exact h.attached?_of_size_le (Nat.le_refl _)
  have untyped : W.record (h.addRecord .empty).1 = none := by
    cases hrole : W.record (h.addRecord .empty).1 with
    | none => rfl
    | some role => exact absurd (d.recordHeld _ role hrole) new
  refine ⟨.record free inside .nil, List.nodup_cons.2 ⟨List.not_mem_nil, List.nodup_nil⟩,
    fun v hv => ?_, untyped_record untyped⟩
  cases List.mem_singleton.1 hv
  simp [Heap.Holds, Heap.addRecord]

theorem tail {v : Value} (hy : W.Ready h vs (v :: cells)) (t : h.Trees vs' cells) :
    v ∉ cells ∧ W.Ready h vs' cells := by
  obtain ⟨hn, nodup⟩ := List.nodup_cons.1 hy.nodup
  exact ⟨hn, t, nodup, fun w hw => hy.held w (List.mem_cons_of_mem _ hw),
    fun r hr => hy.untyped.record r (List.mem_cons_of_mem _ hr),
    fun a ha => hy.untyped.array a (List.mem_cons_of_mem _ ha)⟩

theorem of_array {a : ArrayId} (y : W.Ready h [.array a] cells) :
    ∃ inside, cells = .array a :: inside ∧ .array a ∉ inside ∧ W.Ready h (h.items a) inside := by
  obtain ⟨inside, rfl, t⟩ := y.trees.of_array
  exact ⟨inside, rfl, y.tail t⟩

theorem of_record {r : RecordId} (y : W.Ready h [.record r] cells) :
    ∃ inside, cells = .record r :: inside ∧ .record r ∉ inside ∧ h.attached? r = none ∧
      W.Ready h (h.fields r).values inside := by
  obtain ⟨inside, rfl, free, t⟩ := y.trees.of_record
  exact ⟨inside, rfl, (y.tail t).1, free, (y.tail t).2⟩

end Ready

end Typing

end Overlay
