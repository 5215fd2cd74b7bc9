import Overlay.Proofs.Engine.Acts
import Overlay.Proofs.Engine.Initialising
import Overlay.Proofs.Engine.Reading
import Overlay.Proofs.Snapshot.Extension

/-!
# What is initialised, and that reading initialises nothing

Making a model of a fresh plain tree initialises one model for each record that goes through a type,
from the inside out, and the new model last.  These models die at once, but for the last one, and
reading a field makes a new model around the record.  That one is not initialised again.

* `Engine.create_initialises` : which models a new one is initialised with;
* `Engine.view_silent` : reading, cleaning and writing as JSON report nothing;
* `Engine.initialised_once` : **each record is initialised once, and never by looking at it**.
-/

namespace Overlay.Engine

open Heap

variable {s : Schema} {used : TypeId → Prop} {line : TypeId → Heap → ModelId → List String}
  {all cells : List Value} {c : Context} {st st' : State} {t : TypeId} {v : Value} {m : ModelId}
  {p : Property}

/-! ### Making a model -/

/-- These models were initialised, in this order, when the model was made of the value. -/
structure Initialised (s : Schema) (t : TypeId) (v : Value) (m : ModelId) (births : List Birth)
    (st st' : State) : Prop where
  /-- Of a record, the records inside come first, and then the record itself. -/
  inside : ∀ r, v = .record r → ∃ inside,
    s.Makes st.heap ((s.type t).parts (st.heap.fields r)) inside ∧
      births.map Birth.node = inside ++ [⟨t, r⟩]
  /-- Of anything else, there is only a new record without fields. -/
  alone : v.isRecord = false → ∃ r, births.map Birth.node = [⟨t, r⟩] ∧
    ¬ st.heap.Holds (.record r) ∧ st'.heap.fields r = .empty
  /-- No record is initialised twice. -/
  once : (births.map Birth.record).Nodup
  /-- The last one is the model that was asked for. -/
  last : births.getLast?.map Birth.model = some m
  /-- All fields of each record were set, and the model was attached to it. -/
  stand : ∀ b ∈ births, b.Stands b.heap ∧ b.Stands st'.heap

/-- A model of a type in use around one of the cells. -/
structure Shown (used : TypeId → Prop) (all : List Value) (h : Heap) (m : ModelId) : Prop where
  /-- It is there. -/
  model : h.Holds (.model m)
  /-- Its type is in use. -/
  type : used (h.type m)
  /-- It wraps one of the cells. -/
  data : ∃ r, .record r ∈ all ∧ h.data m = .record r

theorem Shown.grows {h h' : Heap} (shown : Shown used all h m) (g : h.Grows h') :
    Shown used all h' m where
  model := shown.model.grows g
  type := (g.type_eq shown.model).symm ▸ shown.type
  data := shown.data.imp fun _ ⟨mem, data⟩ => ⟨mem, (g.data_eq shown.model).trans data⟩

theorem fillModel_initialises {depth : Nat} {r : RecordId} (only : s.OnlyReports used line)
    (hc : c.schema = s) (ht : used t) (fresh : st.heap.Fresh [.record r] cells)
    (run : fillModel (Engine.perform depth) t (s.type t) r c st = (.ok m, st')) :
    ∃ births, Initialised s t (.record r) m births st st' ∧
      st'.log = st.log ++ births.flatMap (·.lines s line) ∧
        st'.heap.Enclosed used cells ∧ Shown used cells st'.heap m ∧
          (st.heap.fields r = .empty → st'.heap.fields r = .empty) := by
  have enclosed : st.heap.Enclosed used cells := fresh.enclosed
  have held := fresh.held
  obtain ⟨inside, rfl, out, -, below⟩ := fresh.of_record
  obtain ⟨births, b, makes, node, rfl, brings, empty⟩ :=
    fillModel_made (perform_reporting only (.record r :: inside) depth) only hc ht
      (held _ List.mem_cons_self) out below (fun u hu => List.mem_cons_of_mem _ hu) run
  have trees : st.heap.Trees (((s.type t).parts (st.heap.fields r)).map Prod.snd) inside := by
    rw [Schema.Makes.snd_parts]
    exact below.trees
  obtain ⟨rfl, rfl⟩ : b.type = t ∧ b.record = r := Node.mk.inj node
  obtain ⟨-, stands⟩ := brings.stand b (by simp)
  refine ⟨births ++ [b], ⟨?_, nofun, ?_, ?_, brings.stand⟩, brings.log, brings.enclosed enclosed,
    ⟨stands.model, stands.type.symm ▸ ht, b.record, List.mem_cons_self, stands.data⟩, empty⟩
  · rintro r e
    cases e
    exact ⟨_, makes, by rw [List.map_append]; rfl⟩
  · have once := makes.nodup trees below.apart
    rw [List.map_map] at once
    rw [List.map_append, List.nodup_append]
    refine ⟨once, List.nodup_cons.2 ⟨List.not_mem_nil, .nil⟩, fun r hr r' hr' e => out ?_⟩
    obtain ⟨b', hb', rfl⟩ := List.mem_map.1 hr
    rw [← List.mem_singleton.1 hr', ← e]
    exact makes.mem_cells trees b'.node (List.mem_map_of_mem hb')
  · rw [List.getLast?_append, List.getLast?_singleton]
    rfl

theorem fresh_addRecord (h : Heap) : (h.addRecord .empty).2.Fresh [.record (h.addRecord .empty).1]
    [.record (h.addRecord .empty).1] := by
  have fields : (h.addRecord .empty).2.fields (h.addRecord .empty).1 = .empty := by
    rw [fields_addRecord]
    exact if_pos rfl
  have below : (h.addRecord .empty).2.Trees
      ((h.addRecord .empty).2.fields (h.addRecord .empty).1).values [] := by
    rw [fields]
    exact .nil
  refine ⟨.record ?_ below .nil, List.nodup_cons.2 ⟨List.not_mem_nil, .nil⟩,
    List.forall_mem_singleton.2 ?_⟩
  · rw [attached?_addRecord]
    exact h.attached?_of_size_le (Nat.le_refl _)
  · simp [Holds, addRecord]

theorem recordFor_other {r : RecordId} (hv : v.isRecord = false)
    (run : recordFor (some v) c st = (.ok r, st')) :
    r = (st.heap.addRecord .empty).1 ∧ st'.heap = (st.heap.addRecord .empty).2 ∧
      st'.log = st.log := by
  unfold recordFor at run
  rw [Option.getD_some] at run
  cases v with
  | record => cases hv
  | undefined =>
    cases run
    exact ⟨rfl, rfl, rfl⟩
  | null =>
    cases run
    exact ⟨rfl, rfl, rfl⟩
  | _ =>
    obtain ⟨w, st₁, h₁, run⟩ := bind_ok run
    obtain ⟨-, heap, log⟩ := invalid_run_ok h₁
    cases run
    exact ⟨heap ▸ rfl, heap ▸ rfl, log⟩

theorem construct_initialises {depth : Nat} (only : s.OnlyReports used line) (hc : c.schema = s)
    (ht : used t) (fresh : st.heap.Fresh [v] cells)
    (run : construct (Engine.perform depth) t (some v) c st = (.ok m, st')) :
    ∃ births all, Initialised s t v m births st st' ∧
      st'.log = st.log ++ births.flatMap (·.lines s line) ∧
        st'.heap.Enclosed used all ∧ Shown used all st'.heap m := by
  cases allowed : (s.type t).allowsInstances with
  | false =>
    rw [construct_barred _ hc allowed] at run
    cases run
  | true =>
    rw [construct_structured _ hc allowed (only.structured t ht)] at run
    obtain ⟨r, st₁, h₁, run⟩ := bind_ok run
    cases hv : v.isRecord with
    | true =>
      obtain ⟨r', rfl⟩ := Value.exists_of_isRecord hv
      cases h₁
      obtain ⟨births, made, log, enclosed, shown, -⟩ :=
        fillModel_initialises only hc ht fresh run
      exact ⟨births, cells, made, log, enclosed, shown⟩
    | false =>
      obtain ⟨rfl, heap, log⟩ := recordFor_other hv h₁
      have alone := heap ▸ fresh_addRecord st.heap
      obtain ⟨births, made, log', enclosed, shown, empty⟩ :=
        fillModel_initialises only hc ht alone run
      have fields : st₁.heap.fields (st.heap.addRecord .empty).1 = .empty := by
        rw [heap, fields_addRecord]
        exact if_pos rfl
      obtain ⟨inside, makes, nodes⟩ := made.inside _ rfl
      rw [fields] at makes
      cases makes
      refine ⟨births, _, ⟨fun r e => ?_, fun _ => ?_, made.once, made.last, made.stand⟩,
        log'.trans (by rw [log]), enclosed, shown⟩
      · rw [e] at hv
        cases hv
      · exact ⟨_, nodes, Nat.lt_irrefl _, empty fields⟩

/-- Making a model of a fresh plain tree initialises just these models. -/
theorem create_initialises (only : s.OnlyReports used line) (hc : c.schema = s) (ht : used t)
    (fresh : st.heap.Fresh [v] cells) (run : create t (some v) c st = (.ok m, st')) :
    ∃ births all, Initialised s t v m births st st' ∧
      st'.log = st.log ++ births.flatMap (·.lines s line) ∧
        st'.heap.Enclosed used all ∧ Shown used all st'.heap m := by
  obtain ⟨d, hd⟩ := c.schema.budget_eq_succ 0
  change Engine.perform (c.schema.budget 0) (.create t (some v)) c st = _ at run
  rw [hd] at run
  exact construct_initialises only hc ht fresh run

/-! ### Looking at models -/

/-- The run reports nothing and leaves the cells holding nothing else, and a model that it gives is
one around a cell. -/
structure Silent (used : TypeId → Prop) (all : List Value) (st : State)
    (run : Except Fault Value × State) : Prop where
  /-- Nothing is reported. -/
  log : run.2.log = st.log
  /-- No model is gone. -/
  grows : st.heap.Grows run.2.heap
  /-- The cells hold nothing else. -/
  enclosed : run.2.heap.Enclosed used all
  /-- A model is one around a cell. -/
  shown : ∀ m, run.1 = .ok (.model m) → Shown used all run.2.heap m

namespace Silent

variable {run : Except Fault Value × State}

theorem of_same (e : st.heap.Enclosed used all) (heap : run.2.heap = st.heap)
    (log : run.2.log = st.log) (shown : ∀ m, run.1 = .ok (.model m) → Shown used all st.heap m) :
    Silent used all st run where
  log := log
  grows := heap ▸ .refl _
  enclosed := heap ▸ e
  shown m hm := heap ▸ shown m hm

theorem apart {act : Engine Value}
    (silent : Silent used all { st with options := .throwing }
      (act c { st with options := .throwing })) :
    Silent used all st (Engine.apart act c st) :=
  ⟨silent.log, silent.grows, silent.enclosed, silent.shown⟩

end Silent

theorem ne_model_of_cell (e : st.heap.Enclosed used all) (hv : v.isScalar = true ∨ v ∈ all) :
    v.isModel = false := by
  rcases hv with plain | mem
  · cases v <;> first | rfl | cases plain
  · exact e.plain v mem

theorem shown_of_liveWrapper? (e : st.heap.Enclosed used all) (hv : v.isScalar = true ∨ v ∈ all)
    (live : liveWrapper? c st.heap v = some m) : Shown used all st.heap m := by
  obtain ⟨r, rfl, hr⟩ := attached?_of_liveWrapper? live
  have mem := hv.resolve_left Bool.false_ne_true
  obtain ⟨there, data, type⟩ := e.attached r m mem hr
  exact ⟨there, type, r, mem, data⟩

/-- Where no model can be made, wrapping finds the model attached to the cell at most. -/
theorem wrap_silent (only : s.OnlyReports used line) (hc : c.schema = s) (ht : used t) (depth : Nat)
    (e : st.heap.Enclosed used all) (hv : v.isScalar = true ∨ v ∈ all)
    (barred : (s.type t).allowsInstances = false ∨ v.isRecord = false) :
    Silent used all st (Engine.perform depth (.wrap (.model t) v) c st) := by
  subst hc
  cases depth with
  | zero => exact .of_same e rfl rfl nofun
  | succ depth =>
    change Silent used all st (wrapUnder (Engine.perform depth) t v c st)
    have plain := ne_model_of_cell e hv
    rw [wrapUnder_run _ c st (only.wrap t ht) (only.coerce t ht) plain]
    have same : ∀ m, (.ok v : Except Fault Value) = .ok (.model m) → Shown used all st.heap m :=
      fun m e => by cases e; cases plain
    split
    · exact .of_same e rfl rfl same
    · rcases wrapData_steps (Engine.perform depth) c st (only.wrap t ht) v with ⟨-, run⟩ |
        ⟨fault, run⟩ | run | ⟨m, live, run⟩ | ⟨shape, -, -, run⟩ <;> rw [run]
      · exact .of_same e rfl rfl same
      · exact .of_same e rfl rfl nofun
      · refine .of_same e (invalid_heap v c st) (invalid_log v c st) fun m hm => ?_
        cases invalid_ok (Prod.ext hm rfl)
      · refine .of_same e rfl rfl fun m' hm => ?_
        cases hm
        exact shown_of_liveWrapper? e hv live
      · have none : (c.schema.type t).allowsInstances = false :=
          barred.resolve_right fun hr => by
            cases hr.symm.trans (shape (only.structured t ht))
        obtain ⟨fault, refused⟩ := create_refused c st depth none (some v)
        rw [bind_run, refused]
        exact .of_same e rfl rfl nofun

theorem represent_silent (only : s.OnlyReports used line) (hc : c.schema = s) (ht : used t)
    (standard : (s.type t).wrap = .standard) (depth : Nat) (e : st.heap.Enclosed used all)
    (hv : v.isScalar = true ∨ v ∈ all) :
    Silent used all st (represent (Engine.perform depth) t v c st) := by
  have apart : (s.type t).allowsInstances = false ∨ v.isRecord = false → Silent used all st
      (Engine.apart (Engine.perform depth (.wrap (.model t) v)) c st) :=
    fun barred => .apart (wrap_silent only hc ht depth e hv barred)
  have structured := only.structured t ht
  have plain := ne_model_of_cell e hv
  unfold represent
  rw [bind_run]
  dsimp only [schema]
  rw [hc, standard, structured]
  split
  · rename_i unfit
    refine apart ?_
    cases v with
    | record r =>
      exact Or.inl (by simpa [Value.isNothing, Value.isArray, Value.isModel] using unfit)
    | _ => exact Or.inr rfl
  · split
    · rename_i r _
      have mem := hv.resolve_left Bool.false_ne_true
      rw [bind_run, holding_wrapper?]
      rcases live : liveWrapper? c st.heap (.record r) with _ | m
      · change Silent used all st (freshModel t (.record r) c st)
        -- the new wrapper is attached to a record that is already enclosed, and reports nothing
        let m := (st.heap.addModel t (.record r)).1
        let h := (st.heap.addModel t (.record r)).2
        have ext : st.heap.Extends h := st.heap.extends_addModel t (.record r)
        have there : h.Holds (.model m) := st.heap.index_addModel_lt t _
        have type : used (h.type m) := (st.heap.type_addModel t _).symm ▸ ht
        have data : h.data m = .record r := st.heap.data_addModel t _
        have attached := (e.of_extends ext).attach there data type
        rw [freshModel_record, hc, structured, if_pos rfl]
        refine ⟨rfl, ext.grows.trans (Heap.grows_setWrapper ..), attached, fun m hm => ?_⟩
        cases hm
        exact ⟨there, type, r, mem, data⟩
      · refine .of_same e rfl rfl fun m' hm => ?_
        cases hm
        exact shown_of_liveWrapper? e hv live
    · rename_i other
      rw [if_pos rfl]
      refine apart (Or.inr ?_)
      cases v <;> first | rfl | exact absurd rfl (other _)

theorem readProperty_silent (only : s.OnlyReports used line) (hc : c.schema = s) (depth : Nat)
    (confined : p.Confined used) (e : st.heap.Enclosed used all)
    (shown : Shown used all st.heap m) :
    Silent used all st (readProperty (Engine.perform depth) m p c st) := by
  obtain ⟨r, mem, data⟩ := shown.data
  have hv : (fieldOf st.heap m p).isScalar = true ∨ fieldOf st.heap m p ∈ all := by
    rw [fieldOf_of_data data]
    rcases (st.heap.fields r).get_mem_values p.storageKey with held | none
    · exact e.inside _ mem _ held
    · exact Or.inl (none ▸ rfl)
  have plain := ne_model_of_cell e hv
  have same : ∀ w, w = fieldOf st.heap m p → Silent used all st ((.ok w, st) : _ × State) := by
    rintro w rfl
    refine .of_same e rfl rfl fun m' hm => ?_
    rw [Except.ok.inj hm] at plain
    cases plain
  rcases confined.types _ List.mem_cons_self with ⟨b, type⟩ | ⟨t, type, ht⟩
  · rw [readProperty_builtin _ c st m confined.getter type]
    exact same _ rfl
  · rw [readProperty_model _ c st m confined.getter type]
    split
    · exact same _ rfl
    · rename_i busy
      split
      · refine same _ ?_
        generalize fieldOf st.heap m p = v at plain
        cases v <;> first | rfl | cases plain
      · -- the type wraps, so it wraps the standard way
        have wraps : (s.type t).wraps = true := by
          simp only [Bool.or_eq_true, not_or, type, hc] at busy
          simpa [Schema.wraps] using busy.2
        have standard := (only.wrap t ht).resolve_right fun disabled => by
          rw [ModelType.wraps, disabled] at wraps
          cases wraps
        exact represent_silent (c := { c with held := [.model m] ++ c.held }) only hc ht standard
          depth e hv

/-- What a program looks at a model with. -/
inductive View
  /-- Reading the property of this name or storage key. -/
  | get (name : String)
  /-- Taking a snapshot, with the keys that are not recognised if there is a list for them. -/
  | clean (diagnostics : Option (List Diagnostic))
  /-- Writing it as JSON, on one line or indented. -/
  | stringify (pretty : Bool)

namespace View

/-- What it does. -/
def act (m : ModelId) : View → Act
  | get name => .ask (.get m name)
  | clean diagnostics => .ask (.clean m diagnostics)
  | stringify pretty => .stringify (.model m) pretty

/-- The model that was read. -/
def read : View → Except Fault Value → List ModelId
  | get _, .ok (.model m) => [m]
  | _, _ => []

theorem of_mem_read {view : View} {result : Except Fault Value} {x : ModelId}
    (hx : x ∈ view.read result) : result = .ok (.model x) := by
  unfold read at hx
  split at hx
  · rw [List.mem_singleton.1 hx]
  · exact absurd hx List.not_mem_nil

end View

/-- Looking at a model reports nothing, and the model that is read is one around a cell. -/
theorem view_silent (only : s.OnlyReports used line) (hc : c.schema = s)
    (e : st.heap.Enclosed used all) (shown : Shown used all st.heap m) (view : View) :
    let run := (view.act m).run c st
    run.2.log = st.log ∧ st.heap.Grows run.2.heap ∧ run.2.heap.Enclosed used all ∧
      ∀ x ∈ view.read run.1, Shown used all run.2.heap x := by
  cases view with
  | get name =>
    have silent : Silent used all st (Engine.get m name c st) := by
      rcases found : (c.schema.type (st.heap.type m)).property? name with _ | p
      · unfold Engine.get
        rw [bind_run, property_missing found]
        exact .of_same e rfl rfl nofun
      · rw [get_declared found]
        obtain ⟨d, run⟩ := getProperty_run m p c st
        rw [run]
        exact readProperty_silent only hc _ (only.confined _ _ p shown.type (hc ▸ found)) e shown
    exact ⟨silent.log, silent.grows, silent.enclosed, fun x hx =>
      silent.shown x (View.of_mem_read hx)⟩
  | clean diagnostics =>
    have ext := Snapshot.take_extends c.schema (c.held ++ c.schema.heldValues) st.heap diagnostics
      (.model m)
    exact ⟨rfl, ext.grows, e.of_extends ext, fun x hx => nomatch hx⟩
  | stringify pretty => exact ⟨rfl, .refl _, e, fun x hx => nomatch hx⟩

/-- What a program knows after it has looked at a model, at models read from it, and so on, and the
heap then.  Each time there may be any options, and other values in use. -/
inductive Viewed (s : Schema) (m : ModelId) (start : Heap) : List ModelId → Heap → Prop
  /-- It knows the model. -/
  | start : Viewed s m start [m] start
  /-- It looks at a model that it knows. -/
  | look {known : List ModelId} {x : ModelId} {c : Context} {st : State}
      (before : Viewed s m start known st.heap) (types : c.schema = s) (mem : x ∈ known)
      (view : View) :
      Viewed s m start (view.read ((view.act x).run c st).1 ++ known) ((view.act x).run c st).2.heap

/-- Whatever it has looked at, the models that it knows are around the cells. -/
theorem Viewed.shown {start h : Heap} {known : List ModelId} (viewed : Viewed s m start known h)
    (only : s.OnlyReports used line) (e : start.Enclosed used all)
    (shown : Shown used all start m) :
    h.Enclosed used all ∧ ∀ x ∈ known, Shown used all h x := by
  induction viewed with
  | start => exact ⟨e, List.forall_mem_singleton.2 shown⟩
  | look before types mem view ih =>
    obtain ⟨-, grows, enclosed, read⟩ := view_silent only types ih.1 (ih.2 _ mem) view
    refine ⟨enclosed, fun x hx => ?_⟩
    rcases List.mem_append.1 hx with hx | hx
    · exact read x hx
    · exact (ih.2 x hx).grows grows

/-- **Each record is initialised once, and never by looking at it.**  Let the types in use have
properties and no hooks but initialisations that report what they see.  When a model of such a type
is made of a fresh plain tree, in any mode, the reports are those of the following models, for each
the root's part first.

If the tree is a record, there is one model for each record inside that goes through a type that
wraps, in the order of the keys and elements and from the inside out, and then one for the record
itself, whether its type wraps or not.  If it is anything else and could be recorded as invalid, or
is nothing, there is one for a new record without fields.  No record comes twice.  When a model is
initialised, all fields of its record have their final values, and it is attached to the record.

Whatever the program reads, cleans or writes as JSON afterwards, of the model or of models read from
it, nothing more is reported. -/
theorem initialised_once (only : s.OnlyReports used line) (hc : c.schema = s) (ht : used t)
    (fresh : st.heap.Fresh [v] cells) (run : create t (some v) c st = (.ok m, st')) :
    (∃ births, Initialised s t v m births st st' ∧
      st'.log = st.log ++ births.flatMap (·.lines s line)) ∧
    ∀ known h, Viewed s m st'.heap known h → ∀ x ∈ known, ∀ (view : View) c₁ st₁, c₁.schema = s →
      st₁.heap = h → ((view.act x).run c₁ st₁).2.log = st₁.log := by
  obtain ⟨births, all, made, log, enclosed, shown⟩ := create_initialises only hc ht fresh run
  refine ⟨⟨births, made, log⟩, ?_⟩
  rintro known h viewed x hx view c₁ st₁ types rfl
  obtain ⟨enclosed, shown⟩ := viewed.shown only enclosed shown
  exact (view_silent only types enclosed (shown x hx) view).1

/-! ### A machine and its cogs -/

theorem reports_field {b : Builtin} {name : String} (tag : String)
    (found : (s.type t).property? name = some p) (getter : p.getter = none)
    (type : p.type = .builtin b) :
    Reports s t (fun h m => [tag ++ ":" ++ h.text (fieldOf h m p)]) [.get name, .log tag] := by
  intro depth c st m r hc _ ht _
  subst hc ht
  let c' : Context := { c with held := [.model m] ++ ([.model m] ++ c.held) }
  have load : holding (Scene.init m).heldValues
      (runAction (Engine.perform depth) (.init m) (.get name) (.model m)) c st =
        Engine.perform depth (.get m p) c' st := by
    change (property m name >>= fun p => Engine.perform depth (.get m p)) c' st = _
    have looked : property m name c' st = (.ok p, st) := property_found found
    rw [bind_run, looked]
  have run : runHook (Engine.perform depth) (.init m) [.get name, .log tag] (.model m) c st =
      (holding (Scene.init m).heldValues
        (runAction (Engine.perform depth) (.init m) (.get name) (.model m)) >>=
          runActions (Engine.perform depth) (.init m) [.log tag]) c st := rfl
  rw [run, bind_run, load]
  cases depth with
  | zero => exact Or.inl rfl
  | succ depth =>
    have value : Engine.perform (depth + 1) (.get m p) c' st = (.ok (fieldOf st.heap m p), st) :=
      readProperty_builtin _ c' st m getter type
    rw [value]
    exact Or.inr ⟨_, rfl⟩

/-- The identifier of a part. -/
def cogId : Property := ⟨"id", "id", .builtin .string, [], none, none, true⟩

/-- One cog. -/
def machineCore : Property := ⟨"core", "core", .model ⟨1⟩, [], none, none, true⟩

/-- More of them. -/
def machineSpares : Property :=
  ⟨"spares", "spares", .builtin .array, [.model ⟨1⟩], none, none, true⟩

/-- What is known by a name and an initialisation that reports the identifier. -/
def reporting (name : String) : Extension :=
  { Extension.empty with name := some name, init := some (.hook [.get "id", .log name]) }

/-- The root, cogs, machines that are cogs with cogs inside, and cogs that are not wrapped. -/
def machineSchema : Schema :=
  let s := (Schema.initial.addModel (.extended .root .root (reporting "cog") [cogId])).2
  let s := (s.addModel (.extended ⟨1⟩ (s.type ⟨1⟩) (reporting "machine")
    [machineCore, machineSpares])).2
  (s.addModel (.extended ⟨1⟩ (s.type ⟨1⟩) { reporting "loose" with wrap := .disabled } [])).2

/-- The types in use. -/
def machineTypes : List TypeId := [⟨1⟩, ⟨2⟩, ⟨3⟩]

/-- What the initialisations report. -/
def machineLine (u : TypeId) (h : Heap) (m : ModelId) : List String :=
  [(machineSchema.type u).name ++ ":" ++ h.text (fieldOf h m cogId)]

theorem machineSchema_onlyReports : machineSchema.OnlyReports (· ∈ machineTypes) machineLine := by
  have properties : ∀ t ∈ machineTypes, ∀ layer ∈ (machineSchema.type t).properties.layers,
      ∀ e ∈ layer.entries, e.2 ∈ [cogId, machineCore, machineSpares] := by decide +kernel
  have confined : ∀ p ∈ [cogId, machineCore, machineSpares], p.Confined (· ∈ machineTypes) := by
    refine List.forall_mem_cons.2 ⟨?_, List.forall_mem_cons.2 ⟨?_, List.forall_mem_singleton.2 ?_⟩⟩
    · exact ⟨rfl, rfl, List.forall_mem_singleton.2 (Or.inl ⟨.string, rfl⟩)⟩
    · exact ⟨rfl, rfl, List.forall_mem_singleton.2 (Or.inr ⟨⟨1⟩, rfl, List.mem_cons_self⟩)⟩
    · exact ⟨rfl, rfl, List.forall_mem_cons.2 ⟨Or.inl ⟨.array, rfl⟩,
        List.forall_mem_singleton.2 (Or.inr ⟨⟨1⟩, rfl, List.mem_cons_self⟩)⟩⟩
  have hooks : ∀ t ∈ machineTypes, (machineSchema.type t).property? "id" = some cogId ∧
      ∀ u ∈ machineSchema.ancestors t, (machineSchema.type u).init = none ∨
        (machineSchema.type u).init =
          some (.hook [.get "id", .log (machineSchema.type u).name]) := by decide +kernel
  refine ⟨by decide +kernel, by decide +kernel, by decide +kernel, fun t key p ht hp => ?_,
    fun t u rule ht hu hr => ?_⟩
  · obtain ⟨layer, hl, k, hk⟩ := PropertyLayers.lists_of_get? hp
    exact confined p (properties t ht layer hl _ hk)
  · obtain ⟨found, levels⟩ := hooks t ht
    rcases levels u hu with none | some
    · cases none.symm.trans hr
    · exact ⟨_, Option.some.inj (hr.symm.trans some), reports_field _ found rfl rfl⟩

/-- The record of a machine with three cogs. -/
def machineHeap : Heap :=
  ⟨#[⟨.ofList [("id", .string "core")], none⟩, ⟨.ofList [("id", .string "left")], none⟩,
    ⟨.ofList [("id", .string "right")], none⟩,
    ⟨.ofList [("spares", .array ⟨0⟩), ("id", .string "engine"), ("core", .record ⟨0⟩)], none⟩],
    #[[.record ⟨1⟩, .record ⟨2⟩]], #[]⟩

/-- Makes a machine of it. -/
def assemble : Except Fault ModelId × State :=
  create ⟨2⟩ (some (.record ⟨3⟩)) ⟨machineSchema, [.record ⟨3⟩]⟩ ⟨machineHeap, .throwing, []⟩

theorem machineHeap_entries :
    (machineHeap.fields ⟨0⟩).entries = [("id", .string "core")] ∧
    (machineHeap.fields ⟨1⟩).entries = [("id", .string "left")] ∧
    (machineHeap.fields ⟨2⟩).entries = [("id", .string "right")] ∧
    (machineHeap.fields ⟨3⟩).entries =
      [("spares", .array ⟨0⟩), ("id", .string "engine"), ("core", .record ⟨0⟩)] := by
  decide +kernel

theorem machineHeap_fresh : machineHeap.Fresh [.record ⟨3⟩]
    [.record ⟨3⟩, .array ⟨0⟩, .record ⟨1⟩, .record ⟨2⟩, .record ⟨0⟩] := by
  obtain ⟨core, left, right, engine⟩ := machineHeap_entries
  have cog : ∀ {r : RecordId} {id : String}, (machineHeap.fields r).entries = [("id", .string id)] →
      machineHeap.Trees (machineHeap.fields r).values [] := by
    intro r id entries
    rw [Fields.values, entries]
    exact .scalar rfl .nil
  have spares : machineHeap.Trees (machineHeap.items ⟨0⟩) [.record ⟨1⟩, .record ⟨2⟩] :=
    .record rfl (cog left) (.record rfl (cog right) .nil)
  have inside : machineHeap.Trees (machineHeap.fields ⟨3⟩).values
      [.array ⟨0⟩, .record ⟨1⟩, .record ⟨2⟩, .record ⟨0⟩] := by
    rw [Fields.values, engine]
    exact .array spares (.scalar rfl (.record rfl (cog core) .nil))
  exact ⟨.record rfl inside .nil, by decide, by decide⟩

/-- The spare cogs come first, since they are the first field, and then the core. -/
theorem machineHeap_makes : machineSchema.Makes machineHeap
    ((machineSchema.type ⟨2⟩).parts (machineHeap.fields ⟨3⟩))
    [⟨⟨1⟩, ⟨1⟩⟩, ⟨⟨1⟩, ⟨2⟩⟩, ⟨⟨1⟩, ⟨0⟩⟩] := by
  obtain ⟨core, left, right, engine⟩ := machineHeap_entries
  have cog : ∀ {r : RecordId} {id : String}, (machineHeap.fields r).entries = [("id", .string id)] →
      machineSchema.Makes machineHeap
        ((machineSchema.type ⟨1⟩).parts (machineHeap.fields r)) [] := by
    intro r id entries
    rw [ModelType.parts, entries]
    exact .still (.of_isScalar rfl) .nil
  have slots : (machineSchema.type ⟨2⟩).slot? "spares" = some machineSpares.slot ∧
      (machineSchema.type ⟨2⟩).slot? "core" = some machineCore.slot := by
    have found : (machineSchema.type ⟨2⟩).property? "spares" = some machineSpares ∧
        (machineSchema.type ⟨2⟩).property? "core" = some machineCore := by decide +kernel
    rw [ModelType.slot?_of_data (by decide), ModelType.slot?_of_data (by decide), found.1, found.2]
    exact ⟨rfl, rfl⟩
  have form : ∀ q ∈ [machineCore.slot, ⟨some "spares", .model ⟨1⟩, []⟩],
      q.form? machineSchema = some ⟨1⟩ :=
    List.forall_mem_cons.2 ⟨by decide +kernel, List.forall_mem_singleton.2 (by decide +kernel)⟩
  have spares : machineSchema.Makes machineHeap
      ((machineHeap.items ⟨0⟩).map fun v => (some ⟨some "spares", .model ⟨1⟩, []⟩, v))
      [⟨⟨1⟩, ⟨1⟩⟩, ⟨⟨1⟩, ⟨2⟩⟩] :=
    .record (form _ (by simp)) (cog left) (.record (form _ (by simp)) (cog right) .nil)
  rw [ModelType.parts, engine, List.map_cons, List.map_cons, List.map_cons, slots.1, slots.2]
  exact .array rfl spares (.still (.of_isScalar rfl) (.record (form _ (by simp)) (cog core) .nil))

/-- The spare cogs, the core and then the machine are initialised, and reading the core reports
nothing more. -/
theorem initialised_once_machine :
    assemble.1 = .ok ⟨0⟩ ∧
      (∃ births : List Birth,
        births.map Birth.node = [⟨⟨1⟩, ⟨1⟩⟩, ⟨⟨1⟩, ⟨2⟩⟩, ⟨⟨1⟩, ⟨0⟩⟩, ⟨⟨2⟩, ⟨3⟩⟩] ∧
        assemble.2.log = births.flatMap (·.lines machineSchema machineLine)) ∧
      assemble.2.log = ["cog:left", "cog:right", "cog:core", "cog:engine", "machine:engine"] ∧
      ((View.act ⟨0⟩ (.get "core")).run ⟨machineSchema, []⟩ assemble.2).2.log = assemble.2.log := by
  have result : assemble.1 = .ok ⟨0⟩ := by decide +kernel
  have lines : assemble.2.log =
      ["cog:left", "cog:right", "cog:core", "cog:engine", "machine:engine"] := by decide +kernel
  have run : create ⟨2⟩ (some (.record ⟨3⟩)) ⟨machineSchema, [.record ⟨3⟩]⟩
      ⟨machineHeap, .throwing, []⟩ = assemble := by rw [assemble]
  generalize assemble = made at result lines run ⊢
  obtain ⟨_, st⟩ := made
  subst result
  obtain ⟨⟨births, made, log⟩, silent⟩ := initialised_once machineSchema_onlyReports rfl
    (show ⟨2⟩ ∈ machineTypes by decide) machineHeap_fresh run
  refine ⟨rfl, ⟨births, ?_, log⟩, lines, ?_⟩
  · obtain ⟨inside, makes, nodes⟩ := made.inside _ rfl
    rw [nodes, makes.unique machineHeap_makes]
    rfl
  · exact silent [⟨0⟩] st.heap .start ⟨0⟩ List.mem_cons_self (.get "core") ⟨machineSchema, []⟩
      st rfl rfl

/-- The model of the value itself is initialised although records of its type are not wrapped, and
even if the value is no record. -/
theorem initialises_unwrapped :
    machineSchema.OnlyReports (· ∈ machineTypes) machineLine ∧
      (machineSchema.type ⟨3⟩).wraps = false ∧
      (create ⟨3⟩ (some (.record ⟨0⟩)) ⟨machineSchema, [.record ⟨0⟩]⟩
        ⟨machineHeap, .throwing, []⟩).2.log = ["cog:core", "loose:core"] ∧
      (create ⟨1⟩ (some .null) ⟨machineSchema, []⟩ ⟨.empty, .throwing, []⟩).2.log =
        ["cog:undefined"] :=
  ⟨machineSchema_onlyReports, by decide +kernel, by decide +kernel, by decide +kernel⟩

end Overlay.Engine
