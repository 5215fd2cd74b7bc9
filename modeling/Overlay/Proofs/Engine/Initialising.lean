import Overlay.Proofs.Engine.Judging
import Overlay.Proofs.Heap.Making

/-!
# Initialisation runs once for each record

Let the only hooks of some types be initialisations that report that they ran.  Whatever is stored
or constructed under these types, the reports come from the records that `Schema.Makes` lists, in
this order: each is initialised when all that is inside is done, and nothing touches it afterwards.

* `Engine.Brings` : what a run reports and what it leaves;
* `Engine.Reporting` : the same of each operation;
* `Engine.perform_reporting` : **what the operations report**, at any depth.
-/

namespace Overlay

/-! ### What is reported -/

/-- What a new model sees when it is initialised. -/
structure Birth where
  /-- The heap then. -/
  heap : Heap
  /-- The model. -/
  model : ModelId
  /-- Its type. -/
  type : TypeId
  /-- The record that it was made of. -/
  record : RecordId

namespace Birth

/-- Which record it was, under which type. -/
def node (b : Birth) : Node := ⟨b.type, b.record⟩

/-- What the initialisations of the ancestry report, the root's part first. -/
def lines (s : Schema) (line : TypeId → Heap → ModelId → List String) (b : Birth) : List String :=
  ((s.ancestors b.type).reverse.filter fun u => (s.type u).init.isSome).flatMap fun u =>
    line u b.heap b.model

/-- The model is there with its record, whose fields are those that it was initialised with. -/
structure Stands (b : Birth) (h : Heap) : Prop where
  /-- The model is there. -/
  model : h.Holds (.model b.model)
  /-- So is the record. -/
  record : h.Holds (.record b.record)
  /-- The model is an instance of the type. -/
  type : h.type b.model = b.type
  /-- It wraps the record. -/
  data : h.data b.model = .record b.record
  /-- It is attached to it. -/
  attached : h.attached? b.record = some b.model
  /-- The fields are the same. -/
  fields : h.fields b.record = b.heap.fields b.record

theorem Stands.of_changesOnly {b : Birth} {h h' : Heap} {cells : List Value} (stands : b.Stands h)
    (d : h.ChangesOnly h' cells) (out : .record b.record ∉ cells) : b.Stands h' where
  model := stands.model.grows d.grows
  record := stands.record.grows d.grows
  type := (d.grows.type_eq stands.model).trans stands.type
  data := (d.grows.data_eq stands.model).trans stands.data
  attached := (d.attached _ stands.record out).trans stands.attached
  fields := (d.fields _ stands.record out).trans stands.fields

end Birth

/-- The values of the property are left to the engine: it has no accessors, and its type and those
of its elements are built in or in use. -/
structure Property.Confined (used : TypeId → Prop) (p : Property) : Prop where
  /-- Nothing runs in place of reading. -/
  getter : p.getter = none
  /-- Nothing runs in place of writing. -/
  setter : p.setter = none
  /-- The types. -/
  types : ∀ u ∈ p.type :: p.elements, (∃ b, u = .builtin b) ∨ ∃ t, u = .model t ∧ used t

theorem Property.Confined.element {used : TypeId → Prop} {p e : Property} (hp : p.Confined used)
    (he : p.elementProperty? = some e) : e.Confined used := by
  unfold elementProperty? at he
  split at he
  · cases he
  · rename_i elements
    cases he
    exact ⟨rfl, rfl, fun u hu => hp.types u (List.mem_cons_of_mem _ (elements ▸ hu))⟩

namespace Engine

/-- The hook of an initialisation does nothing but report what it sees. -/
def Reports (s : Schema) (t : TypeId) (line : Heap → ModelId → List String) (hook : Hook) : Prop :=
  ∀ depth c st m r, c.schema = s → st.heap.Holds (.model m) → st.heap.type m = t →
    st.heap.data m = .record r →
      (runHook (perform depth) (.init m) hook (.model m) c st).1 = .error .exhausted ∨
        ∃ v, runHook (perform depth) (.init m) hook (.model m) c st =
          (.ok v, { st with log := st.log ++ line st.heap m })

end Engine

/-- The types in use have properties, and there are no other hooks than initialisations that report
what they see. -/
structure Schema.OnlyReports (s : Schema) (used : TypeId → Prop)
    (line : TypeId → Heap → ModelId → List String) : Prop where
  /-- Properties are declared. -/
  structured : ∀ t, used t → (s.type t).isStructured = true
  /-- Wrapping is the standard one or disabled. -/
  wrap : ∀ t, used t → (s.type t).wrap = .standard ∨ (s.type t).wrap = .disabled
  /-- Nothing coerces. -/
  coerce : ∀ t, used t → (s.type t).coerce = none
  /-- The properties have no accessors, and their types are in use too. -/
  confined : ∀ t key p, used t → (s.type t).property? key = some p → p.Confined used
  /-- The initialisations report. -/
  init : ∀ t u rule, used t → u ∈ s.ancestors t → (s.type u).init = some rule →
    ∃ hook, rule = .hook hook ∧ Engine.Reports s t (line u) hook

namespace Engine

open Heap

variable {s : Schema} {used : TypeId → Prop} {line : TypeId → Heap → ModelId → List String}
  {all cells cells' : List Value} {births births' : List Birth} {st st' st'' : State}

/-- The run changes no other cells than these, reports what these models see when they are
initialised, and leaves them as they were then. -/
structure Brings (s : Schema) (used : TypeId → Prop) (line : TypeId → Heap → ModelId → List String)
    (all cells : List Value) (births : List Birth) (st st' : State) : Prop where
  /-- Nothing else changes. -/
  changes : st.heap.ChangesOnly st'.heap cells
  /-- The reports. -/
  log : st'.log = st.log ++ births.flatMap (·.lines s line)
  /-- The models are as they were. -/
  stand : ∀ b ∈ births, b.Stands b.heap ∧ b.Stands st'.heap
  /-- The cells of the data hold nothing else. -/
  enclosed : st.heap.Enclosed used all → st'.heap.Enclosed used all

namespace Brings

theorem of_same (heap : st'.heap = st.heap) (log : st'.log = st.log) :
    Brings s used line all cells [] st st' where
  changes := heap ▸ .refl _ _
  log := by rw [log, List.flatMap_nil, List.append_nil]
  stand _ hb := absurd hb List.not_mem_nil
  enclosed e := heap ▸ e

theorem change {h : Heap} (changes : st.heap.ChangesOnly h cells)
    (enclosed : st.heap.Enclosed used all → h.Enclosed used all) :
    Brings s used line all cells [] st { st with heap := h } where
  changes := changes
  log := (List.append_nil _).symm
  stand _ hb := absurd hb List.not_mem_nil
  enclosed := enclosed

theorem trans (first : Brings s used line all cells births st st')
    (next : Brings s used line all cells' births' st' st'')
    (out : ∀ b ∈ births, .record b.record ∉ cells') :
    Brings s used line all (cells ++ cells') (births ++ births') st st'' where
  changes := (first.changes.mono fun _ hv => Or.inl (List.mem_append_left _ hv)).trans next.changes
    fun _ hv => Or.inl (List.mem_append_right _ hv)
  log := by rw [next.log, first.log, List.flatMap_append, List.append_assoc]
  stand b hb := by
    rcases List.mem_append.1 hb with hb | hb
    · exact ⟨(first.stand b hb).1, (first.stand b hb).2.of_changesOnly next.changes (out b hb)⟩
    · exact next.stand b hb
  enclosed e := next.enclosed (first.enclosed e)

theorem mono (brings : Brings s used line all cells births st st')
    (sub : ∀ v ∈ cells, v ∈ cells' ∨ ¬ st.heap.Holds v) :
    Brings s used line all cells' births st st' :=
  ⟨brings.changes.mono sub, brings.log, brings.stand, brings.enclosed⟩

end Brings

/-- The run makes models of the records of these parts. -/
def Made (s : Schema) (used : TypeId → Prop) (line : TypeId → Heap → ModelId → List String)
    (all : List Value) (parts : List Part) (cells : List Value) (st st' : State) : Prop :=
  ∃ births, s.Makes st.heap parts (births.map Birth.node) ∧
    Brings s used line all cells births st st'

/-- What is made of a tree in a slot: the tree or a value without parts, and the models of the
records inside. -/
def Taken (s : Schema) (used : TypeId → Prop) (line : TypeId → Heap → ModelId → List String)
    (all : List Value) (q : Slot) (v : Value) (cells : List Value) (w : Value) (st st' : State) :
    Prop :=
  (w = v ∨ w.isScalar = true) ∧ Made s used line all [(some q, v)] cells st st'

/-- What the operations report. -/
structure Reporting (s : Schema) (used : TypeId → Prop)
    (line : TypeId → Heap → ModelId → List String) (all : List Value) (perform : Perform) :
    Prop where
  /-- Coercing to a built-in type. -/
  coerce : ∀ {c st st' p b v w cells}, c.schema = s → p.Confined used → p.type = .builtin b →
    st.options.property = some p → st.heap.Fresh [v] cells → (∀ u ∈ cells, u ∈ all) →
      perform (.coerce (.builtin b) v) c st = (.ok w, st') →
        Taken s used line all p.slot v cells w st st'
  /-- Coercing to a model type does nothing. -/
  keep : ∀ {c st st' t v w}, c.schema = s → used t →
    perform (.coerce (.model t) v) c st = (.ok w, st') → w = v ∧ st' = st
  /-- Wrapping. -/
  wrap : ∀ {c st st' q t v w cells}, c.schema = s → used t → q.type = .model t →
    v.isNothing = false → st.heap.Fresh [v] cells → (∀ u ∈ cells, u ∈ all) →
      perform (.wrap (.model t) v) c st = (.ok w, st') →
        Made s used line all [(some q, v)] cells st st'
  /-- Constructing from a record. -/
  create : ∀ {c st st' t r m cells}, c.schema = s → used t → st.heap.Fresh [.record r] cells →
    (∀ u ∈ cells, u ∈ all) → perform (.create t (some (.record r))) c st = (.ok m, st') →
      ∃ births b, s.Makes st.heap ((s.type t).parts (st.heap.fields r)) (births.map Birth.node) ∧
        b.node = ⟨t, r⟩ ∧ b.model = m ∧
          Brings s used line all cells (births ++ [b]) st st'
  /-- Writing. -/
  set : ∀ {c st st' m r p v cells}, c.schema = s → p.Confined used → st.heap.Holds (.model m) →
    st.heap.data m = .record r → .record r ∉ cells → st.heap.Fresh [v] cells →
      (∀ u ∈ cells, u ∈ all) → perform (.set m p v) c st = (.ok (), st') →
        ∃ births, s.Makes st.heap [(some p.slot, v)] (births.map Birth.node) ∧
          Brings s used line all (.record r :: cells) births st st'

section Bodies

variable {perform : Perform} {c : Context} {p : Property} {q : Slot} {t : TypeId} {v w : Value}

theorem Brings.seq {part : Part} {parts : List Part} {changed changed' : List Value}
    (makes : s.Makes st.heap [part] (births.map Birth.node))
    (brings : Brings s used line all changed births st st')
    (makes' : s.Makes st'.heap parts (births'.map Birth.node))
    (brings' : Brings s used line all changed' births' st' st'')
    (first : st.heap.Fresh [part.2] cells) (rest : st.heap.Fresh (parts.map Prod.snd) cells')
    (out : ∀ u ∈ cells, u ∉ changed') (out' : ∀ u ∈ cells', u ∉ changed) :
    s.Makes st.heap (part :: parts) ((births ++ births').map Birth.node) ∧
      Brings s used line all (changed ++ changed') (births ++ births') st st'' := by
  constructor
  · rw [List.map_append]
    exact makes.cons (makes'.of_changesOnly rest.trees brings.changes fun u hu =>
      ⟨rest.held u hu, out' u hu⟩)
  · exact brings.trans brings' fun b hb =>
      out _ (makes.mem_cells first.trees b.node (List.mem_map_of_mem hb))

theorem Made.still {part : Part} (still : part.Still s) (heap : st'.heap = st.heap)
    (log : st'.log = st.log) : Made s used line all [part] cells st st' :=
  ⟨[], .still still .nil, (Brings.of_same heap log).mono fun _ hu => absurd hu List.not_mem_nil⟩

theorem Taken.of_eq {st₁ st₂ : State} (taken : Taken s used line all q v cells w st₁ st₂)
    (heap : st₁.heap = st.heap) (log : st₁.log = st.log) (heap' : st'.heap = st₂.heap)
    (log' : st'.log = st₂.log) : Taken s used line all q v cells w st st' := by
  obtain ⟨hw, births, makes, brings⟩ := taken
  refine ⟨hw, births, heap ▸ makes, ?_, ?_, ?_, ?_⟩
  · rw [heap', ← heap]
    exact brings.changes
  · rw [log', brings.log, log]
  · rw [heap']
    exact brings.stand
  · rw [heap', ← heap]
    exact brings.enclosed

theorem Taken.keep (still : Part.Still s (some q, v)) (hw : w = v ∨ w.isScalar = true)
    (heap : st'.heap = st.heap) (log : st'.log = st.log) :
    Taken s used line all q v cells w st st' :=
  ⟨hw, .still still heap log⟩

/-! ### Coercing -/

theorem invalid_run_ok (h : invalid v c st = (.ok w, st')) :
    w = .undefined ∧ st'.heap = st.heap ∧ st'.log = st.log := by
  have heap := invalid_heap v c st
  have log := invalid_log v c st
  rw [h] at heap log
  exact ⟨invalid_ok h, heap, log⟩

theorem coerceScalar_ok {b : Builtin} (h : coerceScalar b v c st = (.ok w, st')) :
    (w = v ∨ w.isScalar = true) ∧ st'.heap = st.heap ∧ st'.log = st.log := by
  unfold coerceScalar at h
  split at h
  · cases h
    exact ⟨Or.inl rfl, rfl, rfl⟩
  · rw [bind_run] at h
    dsimp only [options] at h
    split at h
    · obtain ⟨rfl, same⟩ := invalid_run_ok h
      exact ⟨Or.inr rfl, same⟩
    · rcases hu : b.converted? v with _ | u <;> rw [hu] at h
      · obtain ⟨rfl, same⟩ := invalid_run_ok h
        exact ⟨Or.inr rfl, same⟩
      · cases h
        exact ⟨Or.inr (isScalar_of_converted? hu), rfl, rfl⟩

theorem coerceInteger_ok (h : coerceInteger v c st = (.ok w, st')) :
    (w = v ∨ w.isScalar = true) ∧ st'.heap = st.heap ∧ st'.log = st.log := by
  obtain ⟨u, st₁, h₁, h⟩ := bind_ok h
  obtain ⟨hu, heap, log⟩ := coerceScalar_ok h₁
  split at h
  · split at h
    · cases h
      exact ⟨Or.inr rfl, heap, log⟩
    · obtain ⟨rfl, same⟩ := invalid_run_ok h
      exact ⟨Or.inr rfl, same.1.trans heap, same.2.trans log⟩
  · cases h
    exact ⟨hu, heap, log⟩

theorem replaceItems_made {action : Value → Engine Value} {e : Slot}
    (hact : ∀ {st st' v w cells}, st.heap.Fresh [v] cells → (∀ u ∈ cells, u ∈ all) →
      action v c st = (.ok w, st') → Taken s used line all e v cells w st st')
    {a : ArrayId} {vs : List Value} {i : Nat} (held : st.heap.Holds (.array a))
    (drop : (st.heap.items a).drop i = vs) (fresh : st.heap.Fresh vs cells)
    (out : .array a ∉ cells) (sub : ∀ u ∈ cells, u ∈ all)
    (run : replaceItems action a i vs.length c st = (.ok (), st')) :
    ∃ births, s.Makes st.heap (vs.map fun v => (some e, v)) (births.map Birth.node) ∧
      Brings s used line all (.array a :: cells) births st st' := by
  induction vs generalizing i cells st with
  | nil =>
    cases run
    exact ⟨[], .nil, (Brings.of_same rfl rfl).mono fun _ hu => absurd hu List.not_mem_nil⟩
  | cons v vs ih =>
    have item : st.heap.item a i = v := by
      rw [Heap.item, List.getD_eq_getElem?_getD, ← List.head?_drop, drop]
      rfl
    obtain ⟨cells₁, cells₂, rfl, first, rest, apart⟩ := fresh.split
    obtain ⟨h, st₀, h₀, run⟩ := bind_ok run
    cases h₀
    obtain ⟨w, st₁, h₁, run⟩ := bind_ok run
    obtain ⟨⟨⟩, st₂, h₂, run⟩ := bind_ok run
    cases h₂
    rw [item] at h₁
    have sub₁ : ∀ u ∈ cells₁, u ∈ all := fun u hu => sub u (List.mem_append_left _ hu)
    obtain ⟨hw, births₁, makes₁, brings₁⟩ := hact first sub₁ h₁
    have known : w.isScalar = true ∨ w ∈ all := by
      rcases hw with rfl | hw
      · exact first.scalar_or_mem.imp_right (sub₁ _)
      · exact Or.inl hw
    -- the element is replaced when all that is inside is done
    let st₂ : State := { st₁ with heap := st₁.heap.setItem a i w }
    have write : Brings s used line all [.array a] [] st₁ st₂ :=
      .change (st₁.heap.changesOnly_setItem List.mem_cons_self i w) (·.setItem a i known)
    have brings := brings₁.trans write fun b hb h => by cases List.mem_singleton.1 h
    rw [List.append_nil] at brings
    have others : ∀ u ∈ cells₂, u ∉ cells₁ ++ [.array a] := by
      intro u hu h
      rcases List.mem_append.1 h with h | h
      · exact apart u h hu
      · exact out (List.mem_append_right _ (List.mem_singleton.1 h ▸ hu))
    have items : (st₁.heap.setItem a i w).items a = (st.heap.items a).set i w := by
      rw [items_setItem, if_pos rfl,
        brings₁.changes.items a held fun h => out (List.mem_append_left _ h)]
    have held₂ : st₂.heap.Holds (.array a) := held.grows brings.changes.grows
    obtain ⟨births₂, makes₂, brings₂⟩ := ih (i := i + 1) held₂
      (by rw [items, List.drop_set_of_lt (Nat.lt_succ_self i), ← List.tail_drop, drop,
        List.tail_cons])
      (rest.of_changesOnly brings.changes others) (fun h => out (List.mem_append_right _ h))
      (fun u hu => sub u (List.mem_append_right _ hu)) run
    -- what is inside this element is neither the array nor among the others
    have apart₁ : ∀ u ∈ cells₁, u ∉ .array a :: cells₂ := by
      intro u hu h
      rcases List.mem_cons.1 h with rfl | h
      · exact out (List.mem_append_left _ hu)
      · exact apart u hu h
    obtain ⟨makes, both⟩ := Brings.seq makes₁ brings makes₂ brings₂ first
      ((Schema.Makes.snd_elements e vs).symm ▸ rest) apart₁ others
    refine ⟨births₁ ++ births₂, makes, both.mono fun u hu => Or.inl ?_⟩
    simp only [List.mem_append, List.mem_cons, List.not_mem_nil, or_false] at hu ⊢
    grind

/-- A value of a built-in type goes through nothing unless it is an array with declared elements. -/
theorem still_of_builtin {b : Builtin} (type : q.type = .builtin b)
    (plain : ∀ a, v = .array a → q.items? = none) : Part.Still s (some q, v) := by
  cases v with
  | array a => exact plain a rfl
  | record r =>
    show q.form? s = none
    unfold Slot.form?
    rw [type]
  | _ => trivial

/-- A value of a model type goes through nothing unless it is a record that is wrapped. -/
theorem still_of_model (type : q.type = .model t)
    (bare : v.isRecord = true → (s.type t).wraps = false) : Part.Still s (some q, v) := by
  cases v with
  | array a =>
    show q.items? = none
    unfold Slot.items?
    rw [type]
  | record r =>
    show q.form? s = none
    unfold Slot.form?
    rw [type]
    simp [bare rfl]
  | _ => trivial

theorem coerceBuiltin_taken {stored : Property → Value → Engine Value} {b : Builtin}
    (type : p.type = .builtin b) (hand : st.options.property = some p)
    (hs : ∀ {e c' st st' v w cells}, p.elementProperty? = some e →
      stored e v c' st = (.ok w, st') → c'.schema = c.schema → st.heap.Fresh [v] cells →
        (∀ u ∈ cells, u ∈ all) → Taken s used line all e.slot v cells w st st')
    (run : coerceBuiltin stored b v c st = (.ok w, st')) (fresh : st.heap.Fresh [v] cells)
    (sub : ∀ u ∈ cells, u ∈ all) :
    Taken s used line all p.slot v cells w st st' := by
  have items : b ≠ .array → p.slot.items? = none := by
    intro hb
    unfold Slot.items?
    rw [show p.slot.type = .builtin b from type]
    cases b <;> first | rfl | exact absurd rfl hb
  -- every type but the array checks or converts one value and makes no model
  have simple : b ≠ .array → (w = v ∨ w.isScalar = true) ∧ st'.heap = st.heap ∧ st'.log = st.log →
      Taken s used line all p.slot v cells w st st' := fun hb ⟨hw, heap, log⟩ =>
    .keep (still_of_builtin type fun _ _ => items hb) hw heap log
  cases b with
  | integer => exact simple Builtin.noConfusion (coerceInteger_ok run)
  | object =>
    cases run
    exact simple Builtin.noConfusion ⟨Or.inl rfl, rfl, rfl⟩
  | array =>
    change coerceArray stored v c st = _ at run
    unfold coerceArray at run
    split at run
    · cases run
      exact .keep (still_of_builtin type fun _ e => nomatch e) (Or.inl rfl) rfl rfl
    · cases run
      exact .keep (still_of_builtin type fun _ e => nomatch e) (Or.inl rfl) rfl rfl
    · rename_i a
      have element : p.slot.items? = p.elementProperty?.map Property.slot := by
        unfold Slot.items?
        rw [show p.slot.type = .builtin .array from type]
        exact p.slot_element?
      rw [bind_run] at run
      dsimp only [options] at run
      rw [hand, Option.bind_some] at run
      rcases he : p.elementProperty? with _ | e <;> rw [he] at run element
      · cases run
        exact .keep (still_of_builtin type fun _ _ => element) (Or.inl rfl) rfl rfl
      · obtain ⟨h, st₀, h₀, run⟩ := bind_ok run
        cases h₀
        obtain ⟨⟨⟩, st₁, h₁, run⟩ := bind_ok run
        cases run
        obtain ⟨inside, rfl, out, below⟩ := fresh.of_array
        -- the models made are those of the items, in their order
        obtain ⟨births, makes, brings⟩ := replaceItems_made
          (c := { c with held := [.array a] ++ c.held })
          (fun fresh sub run => hs he run rfl fresh sub)
          (fresh.held _ List.mem_cons_self) List.drop_zero below out
          (fun u hu => sub u (List.mem_cons_of_mem _ hu)) h₁
        refine ⟨Or.inl rfl, births, ?_, brings⟩
        rw [← List.append_nil (births.map Birth.node)]
        exact .array element makes .nil
    · rename_i other
      obtain ⟨rfl, heap, log⟩ := invalid_run_ok run
      exact .keep (still_of_builtin type fun a e => absurd e (other a)) (Or.inr rfl) heap log
  | _ => exact simple Builtin.noConfusion (coerceScalar_ok run)

/-! ### Writing -/

theorem ne_model_of_fresh (fresh : st.heap.Fresh [v] cells) (m : ModelId) : v ≠ .model m := by
  rintro rfl
  cases fresh.trees.not_model

/-- Under a built-in type, adapting does all the work. -/
theorem adapt_taken (hp : Reporting s used line all perform) (hc : c.schema = s)
    (confined : p.Confined used) {b : Builtin} (type : p.type = .builtin b)
    (run : adapt perform p v c st = (.ok w, st')) (hand : st.options.property = some p)
    (fresh : st.heap.Fresh [v] cells) (sub : ∀ u ∈ cells, u ∈ all) :
    Taken s used line all p.slot v cells w st st' := by
  rw [adapt_run perform c st (ne_model_of_fresh fresh), type] at run
  exact hp.coerce hc confined type hand fresh sub run

theorem adapt_keep (hp : Reporting s used line all perform) (hc : c.schema = s) (ht : used t)
    (type : p.type = .model t) (run : adapt perform p v c st = (.ok w, st'))
    (fresh : st.heap.Fresh [v] cells) : w = v ∧ st' = st := by
  rw [adapt_run perform c st (ne_model_of_fresh fresh), type] at run
  exact hp.keep hc ht run

theorem settle_taken (hp : Reporting s used line all perform) (hc : c.schema = s) (ht : used t)
    (type : p.type = .model t) (run : settle perform p v c st = (.ok w, st'))
    (fresh : st.heap.Fresh [v] cells) (sub : ∀ u ∈ cells, u ∈ all) :
    Taken s used line all p.slot v cells w st st' := by
  unfold settle at run
  rw [bind_run] at run
  dsimp only [schema] at run
  rw [type] at run
  split at run
  · rename_i idle
    cases run
    refine .keep (still_of_model type fun hr => ?_) (Or.inl rfl) rfl rfl
    cases v <;> first | cases hr; done | simpa [Value.isNothing, Schema.wraps, hc] using idle
  · rename_i busy
    obtain ⟨u, st₁, h₁, run⟩ := bind_ok run
    simp only [Bool.or_eq_true, not_or] at busy
    obtain ⟨births, makes, brings⟩ := hp.wrap (q := p.slot)
      (c := { c with held := [v] ++ c.held }) hc ht type (Bool.eq_false_iff.2 busy.1) fresh sub h₁
    split at run
    · cases run
      exact ⟨Or.inr rfl, births, makes, brings⟩
    · obtain ⟨h, st₂, h₂, run⟩ := bind_ok run
      cases h₂
      cases run
      refine ⟨Or.inl ?_, births, makes, brings⟩
      have := ne_model_of_fresh fresh
      cases v <;> first | rfl | exact absurd rfl (this _)

theorem stored_taken (hp : Reporting s used line all perform) (hc : c.schema = s)
    (confined : p.Confined used) (run : stored perform p v c st = (.ok w, st'))
    (fresh : st.heap.Fresh [v] cells) (sub : ∀ u ∈ cells, u ∈ all) :
    Taken s used line all p.slot v cells w st st' := by
  rcases confined.types _ List.mem_cons_self with ⟨b, type⟩ | ⟨t, type, ht⟩
  · rw [stored_builtin type] at run
    obtain ⟨st₁, run, heap, log⟩ := concerning_run_ok run
    exact (adapt_taken hp hc confined type run rfl fresh sub).of_eq rfl rfl heap log
  · obtain ⟨st₁, run, heap, log⟩ := concerning_run_ok run
    obtain ⟨u, st₂, h₂, run⟩ := bind_ok run
    obtain ⟨rfl, rfl⟩ := adapt_keep hp hc ht type h₂ fresh
    exact (settle_taken hp hc ht type run fresh sub).of_eq rfl rfl heap log

theorem prepared_taken (hp : Reporting s used line all perform) (hc : c.schema = s)
    (confined : p.Confined used) (run : prepared perform p v c st = (.ok w, st'))
    (fresh : st.heap.Fresh [v] cells) (sub : ∀ u ∈ cells, u ∈ all) :
    Taken s used line all p.slot v cells w st st' := by
  rcases confined.types _ List.mem_cons_self with ⟨b, type⟩ | ⟨t, type, ht⟩
  · rw [prepared_builtin type] at run
    obtain ⟨st₁, run, heap, log⟩ := concerning_run_ok run
    exact (adapt_taken hp hc confined type run rfl fresh sub).of_eq rfl rfl heap log
  · obtain ⟨u, st₁, h₁, h₃⟩ := bind_ok run
    obtain ⟨st₂, h₂, heap₁, log₁⟩ := concerning_run_ok h₁
    obtain ⟨rfl, rfl⟩ := adapt_keep hp hc ht type h₂ fresh
    obtain ⟨st₃, h₃, heap, log⟩ := concerning_run_ok h₃
    exact (settle_taken hp hc ht type h₃ (heap₁ ▸ fresh) sub).of_eq heap₁ log₁ heap log

/-- Writing a property: the model's record gets the value when all that is inside is done. -/
theorem writeProperty_made (hp : Reporting s used line all perform) (hc : c.schema = s)
    (confined : p.Confined used) {m : ModelId} {r : RecordId} (there : st.heap.Holds (.model m))
    (data : st.heap.data m = .record r) (out : .record r ∉ cells) (fresh : st.heap.Fresh [v] cells)
    (sub : ∀ u ∈ cells, u ∈ all)
    (run : writeProperty perform m p v c st = (.ok (), st')) :
    ∃ births, s.Makes st.heap [(some p.slot, v)] (births.map Birth.node) ∧
      Brings s used line all (.record r :: cells) births st st' := by
  rw [writeProperty_run perform confined.setter] at run
  let c' : Context := { c with held := [.model m] ++ c.held }
  change wrote m p.storageKey (prepared perform p v c' st) = _ at run
  rcases hmid : prepared perform p v c' st with ⟨fault | w, st₁⟩
  · rw [hmid] at run
    cases run
  · rw [hmid] at run
    obtain ⟨hw, births, makes, brings⟩ := prepared_taken (c := c') hp hc confined hmid fresh sub
    have record := st₁.heap.record?_of_data ((brings.changes.grows.data_eq there).trans data)
    unfold wrote at run
    dsimp only at run
    rw [record, Option.elim_some] at run
    cases run
    have value : w.isScalar = true ∨ w ∈ all := by
      rcases hw with rfl | hw
      · exact fresh.scalar_or_mem.imp_right (sub _)
      · exact Or.inl hw
    have write : Brings s used line all [.record r] [] st₁
        { st₁ with heap := st₁.heap.insert r p.storageKey w } :=
      .change (st₁.heap.changesOnly_insert List.mem_cons_self _ w) (·.insert r _ value)
    have both := brings.trans write fun b hb h => out ?_
    · rw [List.append_nil] at both
      refine ⟨births, makes, both.mono fun u hu => Or.inl ?_⟩
      simpa [or_comm] using hu
    · rw [← List.mem_singleton.1 h]
      exact makes.mem_cells fresh.trees b.node (List.mem_map_of_mem hb)

/-! ### Wrapping -/

theorem wrapUnder_made (hp : Reporting s used line all perform) (only : s.OnlyReports used line)
    (hc : c.schema = s) (ht : used t) (type : q.type = .model t) (nothing : v.isNothing = false)
    (fresh : st.heap.Fresh [v] cells) (sub : ∀ u ∈ cells, u ∈ all)
    (run : wrapUnder perform t v c st = (.ok w, st')) :
    Made s used line all [(some q, v)] cells st st' := by
  subst hc
  have structured := only.structured t ht
  rw [wrapUnder_run perform c st (only.wrap t ht) (only.coerce t ht) fresh.trees.not_model,
    if_neg (by rw [nothing]; exact Bool.false_ne_true)] at run
  rcases only.wrap t ht with standard | disabled
  · cases ha : v.isArray with
    | true =>
      rw [wrapData_array perform c st standard ha] at run
      cases run
    | false =>
      cases hr : v.isRecord with
      | false =>
        rw [wrapData_invalid perform c st standard ha (by rw [structured, hr]; rfl)] at run
        obtain ⟨-, heap, log⟩ := invalid_run_ok run
        exact .still (still_of_model type fun h => by cases hr.symm.trans h) heap log
      | true =>
        obtain ⟨r, rfl⟩ := Value.exists_of_isRecord hr
        obtain ⟨-, -, -, free, -⟩ := fresh.of_record
        rw [wrapData_run perform c st standard ha fun _ => hr,
          liveWrapper?_eq_none fun r' e => by cases e; exact free] at run
        obtain ⟨m, st₁, h₁, run⟩ := bind_ok run
        cases run
        obtain ⟨births, b, makes, node, -, brings⟩ := hp.create rfl ht fresh sub h₁
        refine ⟨births ++ [b], ?_, brings⟩
        rw [List.map_append, List.map_singleton, node]
        refine .record ?_ makes .nil
        unfold Slot.form?
        rw [type]
        dsimp only
        rw [structured, ModelType.wraps, standard]
        rfl
  · rw [wrapData_disabled perform c st disabled] at run
    cases run
    exact .still (still_of_model type fun _ => by rw [ModelType.wraps, disabled]; rfl) rfl rfl

/-! ### Constructing -/

theorem admitEntry_made (hp : Reporting s used line all perform) (only : s.OnlyReports used line)
    (hc : c.schema = s) (ht : used t) {m : ModelId} {r : RecordId} {key : String}
    (there : st.heap.Holds (.model m)) (data : st.heap.data m = .record r)
    (out : .record r ∉ cells) (fresh : st.heap.Fresh [v] cells) (sub : ∀ u ∈ cells, u ∈ all)
    (run : admitEntry perform m (s.type t) key v c st = (.ok (), st')) :
    ∃ births, s.Makes st.heap [((s.type t).slot? key, v)] (births.map Birth.node) ∧
      Brings s used line all (.record r :: cells) births st st' := by
  have pass : (s.type t).slot? key = none → st'.heap = st.heap → st'.log = st.log →
      ∃ births, s.Makes st.heap [((s.type t).slot? key, v)] (births.map Birth.node) ∧
        Brings s used line all (.record r :: cells) births st st' := fun none heap log =>
    none ▸ (Made.still trivial heap log : Made s used line all [(Option.none, v)] _ st st')
  unfold admitEntry at run
  split at run
  · rename_i reserved
    cases run
    exact pass (by unfold ModelType.slot?; rw [if_pos reserved]) rfl rfl
  · rename_i data'
    have slot := ModelType.slot?_of_data (t := s.type t) (Bool.eq_false_iff.2 data')
    rcases hprop : (s.type t).property? key with _ | p <;> rw [hprop] at run slot
    · dsimp only at run
      split at run
      · cases run
        exact pass slot rfl rfl
      · obtain ⟨u, st₁, h₁, run⟩ := bind_ok run
        cases run
        unfold signal at h₁
        split at h₁ <;> cases h₁
        exact pass slot rfl rfl
    · rw [slot]
      exact hp.set hc (only.confined t key p ht hprop) there data out fresh sub run

theorem admitEntries_made (hp : Reporting s used line all perform) (only : s.OnlyReports used line)
    (hc : c.schema = s) (ht : used t) {m : ModelId} {r : RecordId}
    {entries : List (String × Value)} (there : st.heap.Holds (.model m))
    (data : st.heap.data m = .record r) (out : .record r ∉ cells)
    (fresh : st.heap.Fresh (entries.map Prod.snd) cells) (sub : ∀ u ∈ cells, u ∈ all)
    (run : admitEntries perform m (s.type t) entries c st = (.ok (), st')) :
    ∃ births, s.Makes st.heap (entries.map fun e => ((s.type t).slot? e.1, e.2))
        (births.map Birth.node) ∧
      Brings s used line all (.record r :: cells) births st st' := by
  induction entries generalizing cells st with
  | nil =>
    cases run
    exact ⟨[], .nil, (Brings.of_same rfl rfl).mono fun _ hu => absurd hu List.not_mem_nil⟩
  | cons entry rest ih =>
    obtain ⟨key, v⟩ := entry
    obtain ⟨cells₁, cells₂, rfl, first, others, apart⟩ := fresh.split
    obtain ⟨⟨⟩, st₁, h₁, run⟩ := bind_ok run
    obtain ⟨births₁, makes₁, brings₁⟩ :=
      admitEntry_made (c := { c with held := (.model m :: rest.map Prod.snd) ++ c.held }) hp only
        hc ht there data (fun h => out (List.mem_append_left _ h)) first
        (fun u hu => sub u (List.mem_append_left _ hu)) h₁
    have untouched : ∀ u ∈ cells₂, u ∉ .record r :: cells₁ := by
      intro u hu h
      rcases List.mem_cons.1 h with rfl | h
      · exact out (List.mem_append_right _ hu)
      · exact apart u h hu
    obtain ⟨births₂, makes₂, brings₂⟩ := ih (there.grows brings₁.changes.grows)
      ((brings₁.changes.grows.data_eq there).trans data) (fun h => out (List.mem_append_right _ h))
      (others.of_changesOnly brings₁.changes untouched)
      (fun u hu => sub u (List.mem_append_right _ hu)) run
    -- what is inside this entry is neither this record nor among the others
    have apart₁ : ∀ u ∈ cells₁, u ∉ .record r :: cells₂ := by
      intro u hu h
      rcases List.mem_cons.1 h with rfl | h
      · exact out (List.mem_append_left _ hu)
      · exact apart u hu h
    have others' : st.heap.Fresh
        ((rest.map fun e => (((s.type t).slot? e.1, e.2) : Part)).map Prod.snd) cells₂ := by
      rw [List.map_map]
      exact others
    obtain ⟨makes, both⟩ := Brings.seq makes₁ brings₁ makes₂ brings₂ first others' apart₁ untouched
    refine ⟨births₁ ++ births₂, makes, both.mono fun u hu => Or.inl ?_⟩
    simp only [List.mem_append, List.mem_cons] at hu ⊢
    grind

theorem runInit_reports (only : s.OnlyReports used line) (hc : c.schema = s) (ht : used t)
    {depth : Nat} {us : List TypeId} (levels : ∀ u ∈ us, u ∈ s.ancestors t) {m : ModelId}
    {r : RecordId} (there : st.heap.Holds (.model m)) (type : st.heap.type m = t)
    (data : st.heap.data m = .record r)
    (run : runInit (Engine.perform depth) m (us.filterMap fun u => (s.type u).init) c st =
      (.ok (), st')) :
    st' = { st with log := st.log ++
      (us.filter fun u => (s.type u).init.isSome).flatMap fun u => line u st.heap m } := by
  induction us generalizing st with
  | nil =>
    cases run
    rw [List.filter_nil, List.flatMap_nil, List.append_nil]
  | cons u us ih =>
    have levels' : ∀ u ∈ us, u ∈ s.ancestors t := fun u hu => levels u (List.mem_cons_of_mem _ hu)
    rcases hinit : (s.type u).init with _ | rule
    · simp only [List.filterMap_cons, hinit] at run
      rw [List.filter_cons_of_neg (by simp [hinit])]
      exact ih levels' there type data run
    · simp only [List.filterMap_cons, hinit] at run
      rw [List.filter_cons_of_pos (by simp [hinit]), List.flatMap_cons, ← List.append_assoc]
      obtain ⟨hook, rfl, reports⟩ := only.init t u rule ht (levels u List.mem_cons_self) hinit
      obtain ⟨v, st₁, h₁, run⟩ := bind_ok run
      let c' : Context := { c with held := [.model m] ++ c.held }
      change runHook (Engine.perform depth) (.init m) hook (.model m) c' st = _ at h₁
      have reported : st₁ = { st with log := st.log ++ line u st.heap m } := by
        rcases reports depth c' st m r hc there type data with exhausted | ⟨v', ended⟩
        · rw [h₁] at exhausted
          cases exhausted
        · cases h₁.symm.trans ended
          rfl
      rw [reported] at run
      let st₁ : State := { st with log := st.log ++ line u st.heap m }
      exact ih levels' (show st₁.heap.Holds (.model m) from there) type data run

/-- When all fields of its record are set, a model is attached to it and initialised. -/
theorem attach_brings (only : s.OnlyReports used line) (hc : c.schema = s) (ht : used t)
    {depth : Nat} {r : RecordId} {m : ModelId} (there : st.heap.Holds (.model m))
    (held : st.heap.Holds (.record r)) (type : st.heap.type m = t)
    (data : st.heap.data m = .record r)
    (run : runInit (Engine.perform depth) m (s.initRules t) c
      { st with heap := st.heap.setWrapper r (some m) } = (.ok (), st')) :
    st'.heap = st.heap.setWrapper r (some m) ∧
      Brings s used line all [.record r] [⟨st.heap.setWrapper r (some m), m, t, r⟩] st st' := by
  let st₁ : State := { st with heap := st.heap.setWrapper r (some m) }
  let b : Birth := ⟨st₁.heap, m, t, r⟩
  have reported : st' = { st₁ with log := st₁.log ++ b.lines s line } :=
    runInit_reports only hc ht (fun u hu => List.mem_reverse.1 hu) there type data run
  have stands : b.Stands st₁.heap := by
    refine ⟨there, held.grows (st.heap.grows_setWrapper r _), type, data, ?_, rfl⟩
    rw [attached?_setWrapper, if_pos ⟨rfl, held⟩]
  rw [reported]
  refine ⟨rfl, st.heap.changesOnly_setWrapper List.mem_cons_self _, ?_, fun b' hb => ?_,
    (·.attach there data (type.symm ▸ ht))⟩
  · rw [List.flatMap_singleton]
  · rw [List.mem_singleton.1 hb]
    exact ⟨stands, stands⟩

theorem fillModel_made {depth : Nat} (hp : Reporting s used line all (Engine.perform depth))
    (only : s.OnlyReports used line) (hc : c.schema = s) (ht : used t) {r : RecordId} {m : ModelId}
    (held : st.heap.Holds (.record r)) (out : .record r ∉ cells)
    (fresh : st.heap.Fresh (st.heap.fields r).values cells) (sub : ∀ u ∈ cells, u ∈ all)
    (run : fillModel (Engine.perform depth) t (s.type t) r c st = (.ok m, st')) :
    ∃ births b, s.Makes st.heap ((s.type t).parts (st.heap.fields r)) (births.map Birth.node) ∧
      b.node = ⟨t, r⟩ ∧ b.model = m ∧
        Brings s used line all (.record r :: cells) (births ++ [b]) st st' ∧
          (st.heap.fields r = .empty → st'.heap.fields r = .empty) := by
  obtain ⟨rfl, st₂, h₂, h₄⟩ := fillModel_ok hc run
  let m := (st.heap.addModel t (.record r)).1
  let st₁ : State := { st with heap := (st.heap.addModel t (.record r)).2 }
  have ext : st.heap.Extends st₁.heap := st.heap.extends_addModel t (.record r)
  have added : Brings s used line all [] [] st st₁ :=
    .change (ext.changesOnly []) (·.of_extends ext)
  have there : st₁.heap.Holds (.model m) := st.heap.index_addModel_lt t _
  have fresh₁ : st₁.heap.Fresh (st₁.heap.fields r).values cells :=
    fresh.of_changesOnly added.changes fun _ _ => List.not_mem_nil
  obtain ⟨births, makes, filled⟩ :=
    admitEntries_made hp only hc ht there (st.heap.data_addModel t _) out fresh₁ sub h₂
  have grows := filled.changes.grows
  obtain ⟨heap, attached⟩ := attach_brings only hc ht (there.grows grows)
    ((held.grows ext.grows).grows grows) ((grows.type_eq there).trans (st.heap.type_addModel t _))
    ((grows.data_eq there).trans (st.heap.data_addModel t _)) h₄
  have trees : ∀ {h : Heap}, h.Trees (st₁.heap.fields r).values cells →
      h.Trees (((s.type t).parts (st₁.heap.fields r)).map Prod.snd) cells :=
    fun trees => Schema.Makes.snd_parts (s.type t) _ ▸ trees
  -- nothing touches the records inside once they are initialised
  have apart : ∀ b ∈ births, .record b.record ∉ [Value.record r] := by
    intro b hb h
    rw [← List.mem_singleton.1 h] at out
    exact out (makes.mem_cells (trees fresh₁.trees) b.node (List.mem_map_of_mem hb))
  have both := added.trans (filled.trans attached apart) fun b hb => absurd hb List.not_mem_nil
  refine ⟨births, _, ?_, rfl, rfl, both.mono fun u hu => Or.inl ?_, fun empty => ?_⟩
  · exact makes.of_changesOnly (trees fresh.trees) added.changes fun u hu =>
      ⟨fresh.held u hu, List.not_mem_nil⟩
  · simp only [List.nil_append, List.mem_append, List.mem_cons, List.not_mem_nil, or_false] at hu ⊢
    grind
  · -- there are no entries to go through properties
    have none : (st₁.heap.fields r).entries = [] := congrArg Fields.entries empty
    change admitEntries _ m _ (st₁.heap.fields r).entries c st₁ = _ at h₂
    rw [none] at h₂
    have same : st₂ = st₁ := (congrArg Prod.snd h₂).symm
    rw [heap]
    exact (fields_setWrapper ..).trans (same ▸ empty)

theorem construct_made {depth : Nat} (hp : Reporting s used line all (Engine.perform depth))
    (only : s.OnlyReports used line) (hc : c.schema = s) (ht : used t) {r : RecordId} {m : ModelId}
    (fresh : st.heap.Fresh [.record r] cells) (sub : ∀ u ∈ cells, u ∈ all)
    (run : construct (Engine.perform depth) t (some (.record r)) c st = (.ok m, st')) :
    ∃ births b, s.Makes st.heap ((s.type t).parts (st.heap.fields r)) (births.map Birth.node) ∧
      b.node = ⟨t, r⟩ ∧ b.model = m ∧ Brings s used line all cells (births ++ [b]) st st' := by
  cases allowed : (s.type t).allowsInstances with
  | false =>
    rw [construct_barred _ hc allowed] at run
    cases run
  | true =>
    rw [construct_structured _ hc allowed (only.structured t ht)] at run
    obtain ⟨r', st₁, h₁, run⟩ := bind_ok run
    cases h₁
    have held := fresh.held
    obtain ⟨inside, rfl, out, -, below⟩ := fresh.of_record
    obtain ⟨births, b, makes, node, model, brings, -⟩ :=
      fillModel_made hp only hc ht (held _ List.mem_cons_self) out below
        (fun u hu => sub u (List.mem_cons_of_mem _ hu)) run
    exact ⟨births, b, makes, node, model, brings⟩

end Bodies

/-- **What the operations report**, at any depth. -/
theorem perform_reporting (only : s.OnlyReports used line) (all : List Value) (depth : Nat) :
    Reporting s used line all (Engine.perform depth) := by
  induction depth with
  | zero =>
    refine ⟨?_, ?_, ?_, ?_, ?_⟩
    all_goals
      intros
      rename_i run
      cases run
  | succ depth ih =>
    refine ⟨fun hc confined type hand fresh sub run => ?_, fun {c st st' t v w} hc ht run => ?_,
      fun hc ht type nothing fresh sub run =>
        wrapUnder_made ih only hc ht type nothing fresh sub run,
      fun hc ht fresh sub run => construct_made ih only hc ht fresh sub run,
      fun hc confined there data out fresh sub run =>
        writeProperty_made ih hc confined there data out fresh sub run⟩
    · exact coerceBuiltin_taken type hand (fun he run hc' fresh sub =>
        stored_taken ih (hc'.trans hc) (confined.element he) run fresh sub) run fresh sub
    · subst hc
      change coerceUnder (Engine.perform depth) t v c st = _ at run
      rw [coerceUnder_run _ c st (only.coerce t ht)] at run
      cases run
      exact ⟨rfl, rfl⟩

end Engine

end Overlay
