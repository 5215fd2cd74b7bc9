import Overlay.Proofs.Heap.Steps
import Overlay.Proofs.Heap.Trees
import Overlay.Proofs.Plain.Storing

/-!
# The models that a plain tree comes to

Where a declared type wraps records, storing a record makes a model of it: first its entries go
through their properties, in order, then the record itself is done.  So the records of a plain tree
get their models from the inside out, the elements of an array one after the other.

* `Heap.Fresh` : trees of which no cell is shared;
* `Heap.Enclosed` : cells that hold nothing but one another;
* `Schema.Makes` : which records of given parts get a model, and in what order;
* `Schema.Makes.unique` : there is one such order;
* `Schema.Makes.nodup` : no record comes twice;
* `Schema.Makes.of_changesOnly` : changes of other cells make no difference.
-/

namespace Overlay

namespace Heap

variable {s : Schema} {used : TypeId → Prop} {h h' : Heap} {v : Value}
  {vs all cells cells' : List Value}

/-! ### Fresh trees -/

/-- The cells of trees hold nothing else, and no models are attached. -/
theorem Trees.closed (t : h.Trees vs cells) :
    (∀ v ∈ vs, v.isScalar = true ∨ v ∈ cells) ∧
      ∀ v ∈ cells, v.isModel = false ∧ (∀ w ∈ h.children v, w.isScalar = true ∨ w ∈ cells) ∧
        ∀ r, v = .record r → h.attached? r = none := by
  -- what is closed among some cells is closed among more
  have widen : ∀ {us less more : List Value}, (∀ u ∈ less, u ∈ more) →
      (∀ u ∈ us, u.isScalar = true ∨ u ∈ less) → ∀ u ∈ us, u.isScalar = true ∨ u ∈ more :=
    fun sub closed u hu => (closed u hu).imp_right (sub u)
  induction t with
  | nil => exact ⟨List.forall_mem_nil _, List.forall_mem_nil _⟩
  | scalar plain _ ih => exact ⟨List.forall_mem_cons.2 ⟨Or.inl plain, ih.1⟩, ih.2⟩
  | @array a vs cells cells' _ _ ih₁ ih₂ =>
    have sub : ∀ u ∈ cells, u ∈ .array a :: (cells ++ cells') := by simp +contextual
    have sub' : ∀ u ∈ cells', u ∈ .array a :: (cells ++ cells') := by simp +contextual
    refine ⟨List.forall_mem_cons.2 ⟨Or.inr List.mem_cons_self, widen sub' ih₂.1⟩,
      List.forall_mem_cons.2 ⟨⟨rfl, widen sub ih₁.1, nofun⟩, fun v hv => ?_⟩⟩
    rcases List.mem_append.1 hv with hv | hv
    · exact (ih₁.2 v hv).imp_right (And.imp_left (widen sub))
    · exact (ih₂.2 v hv).imp_right (And.imp_left (widen sub'))
  | @record r vs cells cells' free _ _ ih₁ ih₂ =>
    have sub : ∀ u ∈ cells, u ∈ .record r :: (cells ++ cells') := by simp +contextual
    have sub' : ∀ u ∈ cells', u ∈ .record r :: (cells ++ cells') := by simp +contextual
    refine ⟨List.forall_mem_cons.2 ⟨Or.inr List.mem_cons_self, widen sub' ih₂.1⟩,
      List.forall_mem_cons.2 ⟨⟨rfl, widen sub ih₁.1, ?_⟩, fun v hv => ?_⟩⟩
    · rintro r' e
      cases e
      exact free
    · rcases List.mem_append.1 hv with hv | hv
      · exact (ih₁.2 v hv).imp_right (And.imp_left (widen sub))
      · exact (ih₂.2 v hv).imp_right (And.imp_left (widen sub'))

/-- The values are plain trees with these cells, which are there and all different. -/
structure Fresh (h : Heap) (vs cells : List Value) : Prop where
  /-- They are trees. -/
  trees : h.Trees vs cells
  /-- No cell is shared. -/
  apart : cells.Nodup
  /-- The cells are there. -/
  held : ∀ u ∈ cells, h.Holds u

namespace Fresh

theorem split (fresh : h.Fresh (v :: vs) cells) : ∃ cells₁ cells₂, cells = cells₁ ++ cells₂ ∧
    h.Fresh [v] cells₁ ∧ h.Fresh vs cells₂ ∧ ∀ u ∈ cells₁, u ∉ cells₂ := by
  obtain ⟨cells₁, cells₂, rfl, first, rest⟩ := fresh.trees.split
  obtain ⟨apart₁, apart₂, disjoint⟩ := List.nodup_append.1 fresh.apart
  exact ⟨cells₁, cells₂, rfl, ⟨first, apart₁, fun u hu => fresh.held u (List.mem_append_left _ hu)⟩,
    ⟨rest, apart₂, fun u hu => fresh.held u (List.mem_append_right _ hu)⟩,
    fun u hu hu' => disjoint u hu u hu' rfl⟩

theorem of_array {a : ArrayId} (fresh : h.Fresh [.array a] cells) :
    ∃ inside, cells = .array a :: inside ∧ .array a ∉ inside ∧ h.Fresh (h.items a) inside := by
  obtain ⟨inside, rfl, trees⟩ := fresh.trees.of_array
  obtain ⟨out, apart⟩ := List.nodup_cons.1 fresh.apart
  exact ⟨inside, rfl, out, trees, apart, fun u hu => fresh.held u (List.mem_cons_of_mem _ hu)⟩

theorem of_record {r : RecordId} (fresh : h.Fresh [.record r] cells) :
    ∃ inside, cells = .record r :: inside ∧ .record r ∉ inside ∧ h.attached? r = none ∧
      h.Fresh (h.fields r).values inside := by
  obtain ⟨inside, rfl, free, trees⟩ := fresh.trees.of_record
  obtain ⟨out, apart⟩ := List.nodup_cons.1 fresh.apart
  exact ⟨inside, rfl, out, free, trees, apart, fun u hu => fresh.held u (List.mem_cons_of_mem _ hu)⟩

/-- Changes of other cells make no difference. -/
theorem of_changesOnly (fresh : h.Fresh vs cells) (d : h.ChangesOnly h' cells')
    (out : ∀ u ∈ cells, u ∉ cells') : h'.Fresh vs cells :=
  ⟨fresh.trees.of_changesOnly d fun u hu => ⟨fresh.held u hu, out u hu⟩, fresh.apart,
    fun u hu => (fresh.held u hu).grows d.grows⟩

theorem scalar_or_mem (fresh : h.Fresh [v] cells) : v.isScalar = true ∨ v ∈ cells :=
  fresh.trees.closed.1 v List.mem_cons_self

end Fresh

/-! ### Cells that hold nothing else -/

/-- The cells of the list hold values without parts and one another, and the models attached to the
records are instances of types in use. -/
structure Enclosed (used : TypeId → Prop) (all : List Value) (h : Heap) : Prop where
  /-- They are there. -/
  held : ∀ v ∈ all, h.Holds v
  /-- No model is among them. -/
  plain : ∀ v ∈ all, v.isModel = false
  /-- What they hold has no parts or is one of them. -/
  inside : ∀ v ∈ all, ∀ w ∈ h.children v, w.isScalar = true ∨ w ∈ all
  /-- A model attached to one of the records is an instance of a type in use around it. -/
  attached : ∀ r m, .record r ∈ all → h.attached? r = some m →
    h.Holds (.model m) ∧ h.data m = .record r ∧ used (h.type m)

namespace Enclosed

/-- A step that writes such values leaves them so, provided that it attaches right models only. -/
theorem move {C : Value → Prop} (e : h.Enclosed used all)
    (move : Move s (fun w => w.isScalar = true ∨ w ∈ all) C h h')
    (attached : ∀ r m, .record r ∈ all → h'.attached? r = some m → h.attached? r = some m ∨
      h'.Holds (.model m) ∧ h'.data m = .record r ∧ used (h'.type m)) : h'.Enclosed used all where
  held v hv := (e.held v hv).grows move.grows
  plain := e.plain
  inside v hv w hw := (move.children ((e.held v hv).grows move.grows) hw).elim id fun old =>
    e.inside v hv w old.2
  attached r m hr hm := by
    rcases attached r m hr hm with hm | right
    · obtain ⟨there, data, type⟩ := e.attached r m hr hm
      exact ⟨there.grows move.grows, (move.grows.data_eq there).trans data,
        (move.grows.type_eq there).symm ▸ type⟩
    · exact right

theorem insert (e : h.Enclosed used all) (r : RecordId) (key : String) {v : Value}
    (hv : v.isScalar = true ∨ v ∈ all) : (h.insert r key v).Enclosed used all :=
  e.move (s := .initial) (C := fun _ => True) (.insert trivial key hv) fun r' m _ hm =>
    Or.inl (by rwa [attached?_insert] at hm)

theorem setItem (e : h.Enclosed used all) (a : ArrayId) (i : Nat) {v : Value}
    (hv : v.isScalar = true ∨ v ∈ all) : (h.setItem a i v).Enclosed used all :=
  e.move (s := .initial) (C := fun _ => True) (.setItem trivial i hv) fun _ _ _ hm => Or.inl hm

theorem of_extends (e : h.Enclosed used all) (more : h.Extends h') : h'.Enclosed used all where
  held v hv := (e.held v hv).grows more.grows
  plain := e.plain
  inside v hv w hw := e.inside v hv w (more.children_eq (e.held v hv) ▸ hw)
  attached r m hr hm := by
    rw [more.attached?_eq (e.held _ hr)] at hm
    obtain ⟨there, data, type⟩ := e.attached r m hr hm
    exact ⟨there.grows more.grows, (more.grows.data_eq there).trans data,
      (more.grows.type_eq there).symm ▸ type⟩

theorem attach (e : h.Enclosed used all) {r : RecordId} {m : ModelId} (there : h.Holds (.model m))
    (data : h.data m = .record r) (type : used (h.type m)) :
    (h.setWrapper r (some m)).Enclosed used all where
  held v hv := (e.held v hv).grows (h.grows_setWrapper r _)
  plain := e.plain
  inside v hv w hw := e.inside v hv w
    (children_setWrapper r (some m) ((e.held v hv).grows (h.grows_setWrapper r _)) hw).2
  attached r' m' hr' hm' := by
    rw [attached?_setWrapper] at hm'
    split at hm'
    · rename_i same
      cases hm'
      rw [same.1]
      exact ⟨there, data, type⟩
    · exact e.attached r' m' hr' hm'

end Enclosed

theorem Fresh.enclosed (fresh : h.Fresh vs cells) : h.Enclosed used cells where
  held := fresh.held
  plain v hv := (fresh.trees.closed.2 v hv).1
  inside v hv := (fresh.trees.closed.2 v hv).2.1
  attached r _ hr hm := nomatch hm.symm.trans ((fresh.trees.closed.2 _ hr).2.2 r rfl)

end Heap

/-! ### The order of making -/

/-- A value with what is declared for it, if anything is. -/
abbrev Part : Type := Option Slot × Value

/-- The values of a record, each with what the type declares for its key. -/
def ModelType.parts (t : ModelType) (fields : Fields) : List Part :=
  fields.entries.map fun e => (t.slot? e.1, e.2)

/-- Nothing inside goes through a declared type: there are no elements declared for an array, and no
type that wraps a record. -/
def Part.Still (s : Schema) : Part → Prop
  | (some q, .array _) => q.items? = none
  | (some q, .record _) => q.form? s = none
  | _ => True

theorem Part.Still.of_isScalar {s : Schema} {q : Option Slot} {v : Value}
    (plain : v.isScalar = true) : Part.Still s (q, v) := by
  cases q <;> cases v <;> trivial

/-- A record with the type of the model that it gets. -/
structure Node where
  /-- The type. -/
  type : TypeId
  /-- The record. -/
  record : RecordId
  deriving DecidableEq

/-- The records of these parts that get models, in the order in which the models are done. -/
inductive Schema.Makes (s : Schema) (h : Heap) : List Part → List Node → Prop
  | nil : Makes s h [] []
  /-- A part of which no record gets a model. -/
  | still {part : Part} {parts : List Part} {nodes : List Node} (still : part.Still s)
      (rest : Makes s h parts nodes) : Makes s h (part :: parts) nodes
  /-- An array with declared elements, in the order of the elements. -/
  | array {q e : Slot} {a : ArrayId} {parts : List Part} {nodes nodes' : List Node}
      (elements : q.items? = some e)
      (inside : Makes s h ((h.items a).map fun v => (some e, v)) nodes)
      (rest : Makes s h parts nodes') : Makes s h ((some q, .array a) :: parts) (nodes ++ nodes')
  /-- A record under a type that wraps: what is inside comes before it. -/
  | record {q : Slot} {t : TypeId} {r : RecordId} {parts : List Part} {nodes nodes' : List Node}
      (form : q.form? s = some t)
      (inside : Makes s h ((s.type t).parts (h.fields r)) nodes)
      (rest : Makes s h parts nodes') :
      Makes s h ((some q, .record r) :: parts) (nodes ++ ⟨t, r⟩ :: nodes')

namespace Schema.Makes

open Heap

variable {s : Schema} {h h' : Heap} {part : Part} {parts parts' : List Part}
  {nodes nodes' : List Node} {vs cells cells' : List Value}

theorem snd_parts (t : ModelType) (fields : Fields) :
    (t.parts fields).map Prod.snd = fields.values := by
  rw [ModelType.parts, List.map_map]
  rfl

theorem snd_elements (e : Slot) (vs : List Value) :
    (vs.map fun v => ((some e, v) : Part)).map Prod.snd = vs := by
  rw [List.map_map]
  exact List.map_id _

theorem cons (first : s.Makes h [part] nodes) (rest : s.Makes h parts nodes') :
    s.Makes h (part :: parts) (nodes ++ nodes') := by
  cases first with
  | still still none =>
    cases none
    exact .still still rest
  | array elements inside none =>
    cases none
    rw [List.append_nil]
    exact .array elements inside rest
  | record form inside none =>
    cases none
    rw [List.append_assoc]
    exact .record form inside rest

/-- There is only one order. -/
theorem unique (makes : s.Makes h parts nodes) (makes' : s.Makes h parts nodes') :
    nodes = nodes' := by
  induction makes generalizing nodes' with
  | nil =>
    cases makes'
    rfl
  | still still _ ih =>
    cases makes' with
    | still _ rest => exact ih rest
    | array elements _ _ => exact absurd elements (by rw [show _ = none from still]; nofun)
    | record form _ _ => exact absurd form (by rw [show _ = none from still]; nofun)
  | array elements _ _ ih₁ ih₂ =>
    cases makes' with
    | still still _ => exact absurd elements (by rw [show _ = none from still]; nofun)
    | array elements' inside rest =>
      cases elements.symm.trans elements'
      rw [ih₁ inside, ih₂ rest]
  | record form _ _ ih₁ ih₂ =>
    cases makes' with
    | still still _ => exact absurd form (by rw [show _ = none from still]; nofun)
    | record form' inside rest =>
      cases form.symm.trans form'
      rw [ih₁ inside, ih₂ rest]

/-- Changes of other cells make no difference to the models of trees. -/
theorem of_changesOnly (makes : s.Makes h' parts nodes) (trees : h.Trees (parts.map Prod.snd) cells)
    (d : h.ChangesOnly h' cells') (untouched : ∀ v ∈ cells, h.Holds v ∧ v ∉ cells') :
    s.Makes h parts nodes := by
  induction makes generalizing cells with
  | nil => exact .nil
  | still still _ ih =>
    obtain ⟨_, _, rfl, -, rest⟩ := trees.split
    exact .still still (ih rest fun v hv => untouched v (List.mem_append_right _ hv))
  | @array q e a parts _ _ elements _ _ ih₁ ih₂ =>
    obtain ⟨_, _, rfl, first, rest⟩ := trees.split
    obtain ⟨cells₁, rfl, inside⟩ := first.of_array
    obtain ⟨there, out⟩ := untouched (.array a) (by simp)
    rw [d.items a there out, snd_elements] at ih₁
    refine .array elements (ih₁ inside fun v hv => untouched v (by simp [hv])) ?_
    exact ih₂ rest fun v hv => untouched v (by simp [hv])
  | @record q t r parts _ _ form _ _ ih₁ ih₂ =>
    obtain ⟨_, _, rfl, first, rest⟩ := trees.split
    obtain ⟨cells₁, rfl, -, inside⟩ := first.of_record
    obtain ⟨there, out⟩ := untouched (.record r) (by simp)
    rw [d.fields r there out, snd_parts] at ih₁
    refine .record form (ih₁ inside fun v hv => untouched v (by simp [hv])) ?_
    exact ih₂ rest fun v hv => untouched v (by simp [hv])

theorem mem_cells (makes : s.Makes h parts nodes) (trees : h.Trees (parts.map Prod.snd) cells) :
    ∀ n ∈ nodes, .record n.record ∈ cells := by
  induction makes generalizing cells with
  | nil => exact fun n hn => absurd hn List.not_mem_nil
  | still still _ ih =>
    obtain ⟨_, _, rfl, -, rest⟩ := trees.split
    exact fun n hn => List.mem_append_right _ (ih rest n hn)
  | array elements _ _ ih₁ ih₂ =>
    obtain ⟨_, _, rfl, first, rest⟩ := trees.split
    obtain ⟨cells₁, rfl, inside⟩ := first.of_array
    rw [snd_elements] at ih₁
    intro n hn
    rcases List.mem_append.1 hn with hn | hn
    · exact List.mem_append_left _ (List.mem_cons_of_mem _ (ih₁ inside n hn))
    · exact List.mem_append_right _ (ih₂ rest n hn)
  | record form _ _ ih₁ ih₂ =>
    obtain ⟨_, _, rfl, first, rest⟩ := trees.split
    obtain ⟨cells₁, rfl, -, inside⟩ := first.of_record
    rw [snd_parts] at ih₁
    intro n hn
    rcases List.mem_append.1 hn with hn | hn
    · exact List.mem_append_left _ (List.mem_cons_of_mem _ (ih₁ inside n hn))
    · rcases List.mem_cons.1 hn with rfl | hn
      · exact List.mem_append_left _ List.mem_cons_self
      · exact List.mem_append_right _ (ih₂ rest n hn)

/-- No record comes twice if no cell is shared. -/
theorem nodup (makes : s.Makes h parts nodes) (trees : h.Trees (parts.map Prod.snd) cells)
    (apart : cells.Nodup) : (nodes.map Node.record).Nodup := by
  have disjoint : ∀ {nodes nodes' : List Node} {cells cells' : List Value},
      (∀ n ∈ nodes, .record n.record ∈ cells) → (∀ n ∈ nodes', .record n.record ∈ cells') →
      (∀ u ∈ cells, ∀ v ∈ cells', u ≠ v) →
      ∀ r ∈ nodes.map Node.record, ∀ r' ∈ nodes'.map Node.record, r ≠ r' := by
    intro nodes nodes' cells cells' sub sub' apart r hr r' hr' e
    obtain ⟨n, hn, rfl⟩ := List.mem_map.1 hr
    obtain ⟨n', hn', rfl⟩ := List.mem_map.1 hr'
    exact apart _ (sub n hn) _ (sub' n' hn') (congrArg Value.record e)
  induction makes generalizing cells with
  | nil => exact .nil
  | still still _ ih =>
    obtain ⟨_, _, rfl, -, rest⟩ := trees.split
    exact ih rest (List.nodup_append.1 apart).2.1
  | @array q e a _ _ _ elements inside rest ih₁ ih₂ =>
    obtain ⟨_, _, rfl, first, others⟩ := trees.split
    obtain ⟨cells₁, rfl, below⟩ := first.of_array
    obtain ⟨apart₁, apart₂, between⟩ := List.nodup_append.1 apart
    rw [← snd_elements e (h.items a)] at below
    rw [List.map_append, List.nodup_append]
    refine ⟨ih₁ below (List.nodup_cons.1 apart₁).2, ih₂ others apart₂, ?_⟩
    exact disjoint (inside.mem_cells below) (rest.mem_cells others) fun u hu =>
      between u (List.mem_cons_of_mem _ hu)
  | @record q t r _ nodes nodes' form inside rest ih₁ ih₂ =>
    obtain ⟨_, _, rfl, first, others⟩ := trees.split
    obtain ⟨cells₁, rfl, -, below⟩ := first.of_record
    obtain ⟨apart₁, apart₂, between⟩ := List.nodup_append.1 apart
    obtain ⟨out, apart₁⟩ := List.nodup_cons.1 apart₁
    rw [← snd_parts (s.type t)] at below
    have here : ∀ n ∈ [(⟨t, r⟩ : Node)], .record n.record ∈ [Value.record r] := by simp
    rw [List.append_cons, List.map_append, List.nodup_append, List.map_append, List.nodup_append]
    refine ⟨⟨ih₁ below apart₁, List.nodup_cons.2 ⟨List.not_mem_nil, .nil⟩, ?_⟩,
      ih₂ others apart₂, ?_⟩
    · refine disjoint (inside.mem_cells below) here fun u hu v hv e => out ?_
      rwa [← List.mem_singleton.1 hv, ← e]
    · rw [← List.map_append]
      refine @disjoint _ _ (.record r :: cells₁) _ (fun n hn => ?_) (rest.mem_cells others) between
      rcases List.mem_append.1 hn with hn | hn
      · exact List.mem_cons_of_mem _ (inside.mem_cells below n hn)
      · exact List.mem_cons.2 (Or.inl (List.mem_singleton.1 (here n hn)))

end Schema.Makes

end Overlay
