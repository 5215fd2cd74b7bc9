import Mathlib.Data.Prod.Basic
import Overlay.Proofs.Engine.Lawful
import Overlay.Proofs.Heap.Edits
import Overlay.Proofs.Interchange.Canonical
import Overlay.Proofs.Snapshot.Sharing

/-!
# Snapshots and the models they are taken of

The snapshot of a model made of plain data has records and arrays of its own, which are no part of
the model: a program may change them as it likes, and what is got of the model stays the same.  All
that the two have in common is what the types of the model do not describe.

* `Engine.seen_get_kept` : changes of what is no part of a model do not change what is got of it;
* `Snapshot.take_detached` : **a snapshot is detached but for what is handed on.**
-/

namespace Overlay

namespace Engine

open Heap

variable {s : Schema} {c : Context} {st : State} {t : TypeId} {m : ModelId} {r : RecordId}
  {fields : Entries} {h h' : Heap} {C : Value → Prop}

theorem Rooted.extends (a : Rooted t m r fields h) (closed : h.Closed) (e : h.Extends h') :
    Rooted t m r fields h' := by
  have held : ∀ {u}, h.Reachable [.model m] u → h.Holds u := fun reach =>
    reach.holds closed.closedOn (List.forall_mem_singleton.2 a.model)
  refine a.pass e.grows (fun o reach => ?_) fun o reach => ?_
  · rw [Heap.fields, e.records.getElem?_eq (held reach), Heap.fields]
  · rw [Heap.items, e.arrays.getElem?_eq (held reach), Heap.items]

/-- Changes of containers that are no part of a model do not change what is got of it, whatever name
is asked for. -/
theorem seen_get_kept (hs : s.Stratified) (free : s.Free (.model t)) (hc : c.schema = s)
    (a : Rooted t m r fields st.heap) (tied : st.heap.Tied s) (closed : st.heap.Closed)
    (there : ∀ u ∈ c.held ++ s.heldValues, st.heap.Holds u)
    (kept : Kept C (.model m :: (c.held ++ s.heldValues)) st.heap h)
    (same : ∀ r, st.heap.Reachable [.model m] (.record r) → h.fields r = st.heap.fields r)
    (items : ∀ a, st.heap.Reachable [.model m] (.array a) → h.items a = st.heap.items a)
    (name : String) : seen (get m name c { st with heap := h }) = seen (get m name c st) := by
  subst hc
  cases declared : (c.schema.type t).property? name with
  | none =>
    -- neither finds the property
    have missing : ∀ st : State, st.heap.type m = t → (get m name c st).1 =
        .error (.error (.unknownProperty (c.schema.type t).name name)) := by
      intro st type
      unfold get
      rw [bind_run, property_missing (type ▸ declared), type]
    unfold seen
    rw [missing st a.type, missing { st with heap := h } ((kept.grows.type_eq a.model).trans a.type)]
    rfl
  | some p =>
    obtain ⟨record, shows⟩ := a.reachable
    have sh := shows.get a.keys p.storageKey
    have sh' := sh.of_same (fun r hr => same r hr.2) fun a ha => items a ha.2
    rw [← fieldOf_of_data a.data] at sh sh'
    have field : fieldOf h m p = fieldOf st.heap m p := by
      rw [fieldOf_of_data a.data, fieldOf_of_data ((kept.grows.data_eq a.model).trans a.data),
        same r record]
    have text : h.text (fieldOf st.heap m p) = st.heap.text (fieldOf st.heap m p) :=
      (sh'.text_eq fun u hu => hu.1.1.grows kept.grows).trans (sh.text_eq fun u hu => hu.1.1).symm
    refine seen_get_congr (free.property hs declared) (a.type ▸ declared) a.model tied
      kept.grows sh.not_model field text ?_
    have held := sh.holds fun u hu => hu.1.1
    generalize fieldOf st.heap m p = v at sh sh' held
    cases v with
    | record o =>
      let roots : List Value := .model m :: (c.held ++ c.schema.heldValues)
      have all : ∀ u ∈ .record o :: roots, st.heap.Holds u :=
        List.forall_mem_cons.2 ⟨held, List.forall_mem_cons.2 ⟨a.model, there⟩⟩
      -- the record itself leads to no models
      refine wrapper?_congr closed.closedOn all kept.closed.closedOn
        (fun u hu => (all u hu).grows kept.grows) (kept.attached o) fun i _ => ⟨fun reach => ?_,
          fun reach => ?_⟩
      · refine ((kept.held i).1 (reach.of_cons.resolve_left sh'.not_reachable_model)).of_roots
          fun u hu => .root (List.mem_cons_of_mem _ hu)
      · refine ((kept.held i).2 (reach.of_cons.resolve_left sh.not_reachable_model)).of_roots
          fun u hu => .root (List.mem_cons_of_mem _ hu)
    | _ => rfl

end Engine

namespace Snapshot

open Heap Engine Interchange

variable {s : Schema} {t : TypeId} {m : ModelId} {r : RecordId} {fields : Entries} {h h' : Heap}
  {roots : List Value} {w u : Value} {ds ds' : Option (List Diagnostic)}

/-! ### Taking a snapshot of a model -/

/-- The snapshot of a model around plain data that was taken of a heap. -/
structure Taking (s : Schema) (roots : List Value) (m : ModelId) (h h' : Heap)
    (w : Value) : Prop where
  /-- Cells were added. -/
  after : After ⟨s, roots⟩ h h'
  /-- The heap was in order. -/
  fit : Fit ⟨s, roots⟩ h
  /-- The snapshot is there. -/
  there : h'.Holds w
  /-- It shares what is handed on. -/
  shares : Shares ⟨s, roots⟩ h h' none (.model m) w

theorem take_taking (a : Rooted t m r fields h) (fit : Fit ⟨s, roots⟩ h)
    (run : take s roots h ds (.model m) = (w, ⟨h', ds'⟩)) : Taking s roots m h h' w := by
  have nested : h.Nested (Tree.depth (.record fields) + 1) (.model m) := by
    refine List.forall_mem_singleton.2 (a.shows_data.nested ?_ _ List.mem_cons_self)
    simp [Tree.depths]
  obtain ⟨after, copied⟩ := Interchange.take_copied fit a.model nested.acyclic ds
  have shares := fun x => take_shares (x := x) fit.closed fit.tied fit.roots a.model nested.acyclic ds
  rw [run] at after copied shares
  exact ⟨after, fit, copied.given.there, shares⟩

namespace Taking

variable (taking : Taking s roots m h h' w) (a : Rooted t m r fields h)
  (structured : (s.type t).isStructured = true)

include taking a

theorem reachable_data : h'.Reachable [h.data m] u ↔ h.Reachable [h.data m] u := by
  refine taking.after.cells.reachable_iff taking.fit.closed (List.forall_mem_singleton.2 ?_)
  exact taking.fit.closed _ a.model _ List.mem_cons_self

theorem holds_of_reachable (reach : h.Reachable [h.data m] u) : h.Holds u :=
  reach.holds taking.fit.closed.closedOn
    (List.forall_mem_singleton.2 (taking.fit.closed _ a.model _ List.mem_cons_self))

include structured

/-- The snapshot and the record of the model have in common what is handed on. -/
theorem common (scalar : u.isScalar = false) :
    h'.Reachable [w] u ∧ h'.Reachable [h.data m] u ↔ Passes s h roots none (.model m) u := by
  rw [taking.reachable_data a]
  constructor
  · rintro ⟨reach, part⟩
    exact (taking.shares u scalar (taking.holds_of_reachable a part)).1 reach
  · intro passes
    have part := passes.reachable_data taking.fit.tied a.data (a.type ▸ structured)
    exact ⟨(taking.shares u scalar (taking.holds_of_reachable a part)).2 passes, part⟩

theorem not_reachable_model (k : ModelId) : ¬ h'.Reachable [w] (.model k) := by
  intro reach
  have there : h'.Holds (.model k) :=
    reach.holds taking.after.fit.closed.closedOn (List.forall_mem_singleton.2 taking.there)
  have before : h.Holds (.model k) := by
    unfold Heap.Holds at there ⊢
    rwa [taking.after.models] at there
  have passes := (taking.shares _ rfl before).1 reach
  exact a.shows_data.not_reachable_model
    (passes.reachable_data taking.fit.tied a.data (a.type ▸ structured))

end Taking

/-- The container belongs to the snapshot alone, or it was added since. -/
def Own (s : Schema) (roots : List Value) (m : ModelId) (h h' : Heap) (w u : Value) : Prop :=
  ¬ h'.Holds u ∨ h'.Reachable [w] u ∧ ¬ Passes s h roots none (.model m) u

/-- **A snapshot is detached from its model, but for what is handed on.**  Let a model be made of
fresh plain trees, of a type with properties that is free of hooks.  Take its snapshot.

The records and arrays that both the snapshot and the record of the model lead to are those that
something which is handed on leads to: a record that no type with properties describes, or what
stands under a key that is tolerated but not declared.

Then let containers of the snapshot that are not handed on be changed, at any depth, and others be
added and changed, with values of which all models are in use.  All records and arrays of the model
are as they were, and so is what is seen of whatever is got of the model, by any name. -/
theorem take_detached (hs : s.Stratified) (free : s.Free (.model t))
    (structured : (s.type t).isStructured = true) (planted : Planted s t m h)
    (reached : h.Reached s) (there : ∀ u ∈ roots, h.Holds u)
    (run : take s roots h ds (.model m) = (w, ⟨h', ds'⟩)) :
    (∀ u, u.isScalar = false →
      (h'.Reachable [w] u ∧ h'.Reachable [h.data m] u ↔ Passes s h roots none (.model m) u)) ∧
      ∀ (c : Overlay.Context) (st : Overlay.State) (h'' : Heap), c.schema = s → st.heap = h' →
        (∀ u ∈ c.held ++ s.heldValues, h'.Holds u) →
        Edits (Own s roots m h h' w) (.model m :: (c.held ++ s.heldValues)) h' h'' →
          (∀ r, h'.Reachable [h.data m] (.record r) → h''.fields r = h'.fields r) ∧
          (∀ a, h'.Reachable [h.data m] (.array a) → h''.items a = h'.items a) ∧
          ∀ name, seen (get m name c { st with heap := h'' }) = seen (get m name c st) := by
  obtain ⟨r, fields, a, -⟩ := planted.rooted_serves hs free structured
  have taking := take_taking a ⟨reached.closed, reached.tied, there⟩ run
  have common := fun {u : Value} => taking.common a structured (u := u)
  have part : ∀ {u}, h'.Reachable [h.data m] u → h'.Holds u := fun reach =>
    (taking.holds_of_reachable a ((taking.reachable_data a).1 reach)).grows taking.after.cells.grows
  have apart : ∀ {u}, u.isScalar = false → h'.Reachable [h.data m] u →
      ¬ Own s roots m h h' w u := by
    rintro u scalar reach (gone | ⟨own, out⟩)
    · exact gone (part reach)
    · exact out ((common scalar).1 ⟨own, reach⟩)
  refine ⟨fun u scalar => common scalar, fun c st h'' hc heap held edits => ?_⟩
  subst heap
  have kept := edits.kept taking.after.fit.closed fun u own raw k reach => by
    rcases own with gone | ⟨own, -⟩
    · rcases reach.cases_child with rfl | ⟨v, mem, reach⟩
      · cases raw
      · rw [children_of_not_holds gone v mem] at reach
        exact (Shows.leaf (P := fun _ => True) rfl .nil).not_reachable_model reach
    · exact taking.not_reachable_model a structured k (own.trans reach)
  have records : ∀ r, st.heap.Reachable [h.data m] (.record r) → h''.fields r = st.heap.fields r :=
    fun r reach => kept.fields r (part reach) (apart rfl reach)
  have arrays : ∀ a, st.heap.Reachable [h.data m] (.array a) → h''.items a = st.heap.items a :=
    fun a reach => kept.items a (part reach) (apart rfl reach)
  -- what the model leads to besides itself, its record leads to
  have below : ∀ {u}, u.isModel = false → st.heap.Reachable [.model m] u →
      st.heap.Reachable [h.data m] u := by
    intro u raw reach
    rcases reach.cases_child with rfl | ⟨v, mem, reach⟩
    · cases raw
    · rw [List.mem_singleton.1 mem, taking.after.cells.grows.data_eq a.model] at reach
      exact reach
  refine ⟨records, arrays, fun name => ?_⟩
  exact seen_get_kept hs free hc (a.extends taking.fit.closed taking.after.cells)
    taking.after.fit.tied taking.after.fit.closed held kept
    (fun r reach => records r (below rfl reach)) (fun a reach => arrays a (below rfl reach)) name

/-! ### A jar and its label -/

/-- What declares a label. -/
def jarLabels : Extension :=
  { Extension.empty with name := some "Label", properties := [("text", .marker .string)] }

/-- What declares a jar with a label, lids of any kind, and whatever else there is to say of it. -/
def jars : Extension :=
  { Extension.empty with
    name := some "Jar"
    properties :=
      [("label", .type (.model ⟨1⟩)), ("lids", .marker .array), ("extras", .marker .object)]
    allowsAdditional := true }

/-- The root, labels and jars. -/
def jarSchema : Schema :=
  let s := (Schema.initial.addModel (.extended .root .root jarLabels
    [⟨"text", "text", .builtin .string, [], none, none, true⟩])).2
  (s.addModel (.extended .root .root jars
    [⟨"label", "label", .model ⟨1⟩, [], none, none, true⟩,
      ⟨"lids", "lids", .builtin .array, [], none, none, true⟩,
      ⟨"extras", "extras", .builtin .object, [], none, none, true⟩])).2

theorem jarSchema_built : jarSchema.Built :=
  (Schema.Built.initial.extend .root jarLabels (by decide) ⟨rfl, nofun, rfl, rfl⟩ rfl
    (by decide)).extend .root jars (by decide) ⟨rfl, nofun, rfl, rfl⟩ rfl (by decide)

theorem jarSchema_ruleFree : ∀ t, (jarSchema.type t).RuleFree :=
  jarSchema.ruleFree_of_listed (by decide +kernel)

/-- What a jar is made of: a label, a lid, extras and a note. -/
def pantry : Heap :=
  let h := (Heap.empty.recordOf [("text", .string "Plums")]).2
  let h := (h.recordOf [("size", .string "small")]).2
  let h := (h.recordOf [("weight", .string "light")]).2
  let h := (h.recordOf [("from", .string "attic")]).2
  let h := (h.addArray [.record ⟨1⟩]).2
  (h.recordOf [("label", .record ⟨0⟩), ("lids", .array ⟨0⟩), ("extras", .record ⟨2⟩),
    ("note", .record ⟨3⟩)]).2

/-- Makes the jar. -/
def fillJar : Except Fault ModelId × Overlay.State :=
  create ⟨2⟩ (some (.record ⟨4⟩)) ⟨jarSchema, [.record ⟨4⟩]⟩ ⟨pantry, .throwing, []⟩

/-- The snapshot of the jar, and the heap with it. -/
def jarSnapshot : Value × State := take jarSchema [.model ⟨0⟩] fillJar.2.heap none (.model ⟨0⟩)

theorem fillJar_planted : Planted jarSchema ⟨2⟩ ⟨0⟩ fillJar.2.heap := by
  -- each of the small records has one text
  have text : ∀ {r : RecordId} {s : String}, (pantry.fields r).values = [.string s] →
      pantry.Trees (pantry.fields r).values [] := fun e => e ▸ .scalar rfl .nil
  have lids : pantry.Trees (pantry.items ⟨0⟩) [.record ⟨1⟩] :=
    show pantry.Trees [.record ⟨1⟩] _ from .record rfl (text rfl) .nil
  have parts : pantry.Trees (pantry.fields ⟨4⟩).values
      [.record ⟨0⟩, .array ⟨0⟩, .record ⟨1⟩, .record ⟨2⟩, .record ⟨3⟩] :=
    show pantry.Trees [.record ⟨0⟩, .array ⟨0⟩, .record ⟨2⟩, .record ⟨3⟩] _ from
      .record rfl (text rfl) (.array lids (.record rfl (text rfl) (.record rfl (text rfl) .nil)))
  let c : Overlay.Context := ⟨jarSchema, [.record ⟨4⟩]⟩
  let st : Overlay.State := ⟨pantry, .throwing, []⟩
  have trees : st.heap.Trees [(some (Value.record ⟨4⟩)).getD .undefined]
      [.record ⟨4⟩, .record ⟨0⟩, .array ⟨0⟩, .record ⟨1⟩, .record ⟨2⟩, .record ⟨3⟩] :=
    .record rfl parts .nil
  have made : create ⟨2⟩ (some (.record ⟨4⟩)) c st = (.ok ⟨0⟩, fillJar.2) :=
    Prod.fst_eq_iff.1 (by decide +kernel)
  exact .create rfl rfl trees (by decide) (by decide +kernel) made

theorem pantry_reached : pantry.Reached jarSchema := by
  refine ((((((Relation.ReflTransGen.refl).tail (.addRecord ?_)).tail (.addRecord ?_)).tail
    (.addRecord ?_)).tail (.addRecord ?_)).tail (.addArray ?_)).tail (.addRecord ?_)
  all_goals decide +kernel

theorem fillJar_reached : fillJar.2.heap.Reached jarSchema := by
  unfold fillJar
  exact Heap.Reached.create pantry_reached _ _ rfl (by decide +kernel)

theorem fillJar_handedOn :
    HandedOn jarSchema fillJar.2.heap [.model ⟨0⟩] none (.model ⟨0⟩) (.record ⟨2⟩) := by
  have known : known? fillJar.2.heap [.model ⟨0⟩] none (.model ⟨0⟩) = some (⟨2⟩, .record ⟨4⟩) := by
    decide +kernel
  have mem : ("extras", Value.record ⟨2⟩) ∈ (fillJar.2.heap.fields ⟨4⟩).entries := by decide +kernel
  exact .field known (by decide +kernel) mem (by decide +kernel) rfl rfl (.unknown (by decide +kernel))

theorem jarSnapshot_label : jarSnapshot.2.heap.Reachable [jarSnapshot.1] (.record ⟨5⟩) ∧
    ¬ jarSnapshot.2.heap.Reachable [fillJar.2.heap.data ⟨0⟩] (.record ⟨5⟩) := by
  constructor
  · have whole : jarSnapshot.1 = .record ⟨6⟩ := by decide +kernel
    have part : .record ⟨5⟩ ∈ jarSnapshot.2.heap.children (.record ⟨6⟩) := by decide +kernel
    exact whole ▸ .child (.root List.mem_cons_self) part
  · have data : fillJar.2.heap.data ⟨0⟩ = .record ⟨4⟩ := by decide +kernel
    -- these are all the cells of the jar
    have closed : jarSnapshot.2.heap.ClosedOn
        (· ∈ [.record ⟨4⟩, .record ⟨0⟩, .array ⟨0⟩, .record ⟨1⟩, .record ⟨2⟩, .record ⟨3⟩,
          .string "Plums", .string "small", .string "light", .string "attic"]) := by
      unfold Heap.ClosedOn
      decide +kernel
    rw [data]
    exact fun part => absurd (part.holds closed (by decide)) (by decide)

/-- The snapshot has the extras of the jar in it, but no part of its label: whatever is got of the
jar is the same when the snapshot is relabelled. -/
theorem take_detached_jar :
    (jarSnapshot.2.heap.Reachable [jarSnapshot.1] (.record ⟨2⟩) ∧
      jarSnapshot.2.heap.Reachable [fillJar.2.heap.data ⟨0⟩] (.record ⟨2⟩)) ∧
    ∀ c st, c.schema = jarSchema → c.held = [.model ⟨0⟩] → st.heap = jarSnapshot.2.heap → ∀ name,
      seen (get ⟨0⟩ name c { st with heap := st.heap.insert ⟨5⟩ "text" (.string "Pears") }) =
        seen (get ⟨0⟩ name c st) := by
  have run : take jarSchema [.model ⟨0⟩] fillJar.2.heap none (.model ⟨0⟩) = jarSnapshot := rfl
  have label := jarSnapshot_label
  have there : jarSnapshot.2.heap.Holds (.model ⟨0⟩) := by decide +kernel
  have kept : jarSchema.heldValues = [] := by decide +kernel
  generalize jarSnapshot = snapshot at run label there ⊢
  obtain ⟨w, h', ds'⟩ := snapshot
  obtain ⟨common, detached⟩ := take_detached jarSchema_built.stratified
    (jarSchema_built.free jarSchema_ruleFree ⟨2⟩) (by decide +kernel) fillJar_planted
    fillJar_reached (by decide +kernel) run
  refine ⟨(common _ rfl).2 ⟨_, fillJar_handedOn, .root List.mem_cons_self⟩, ?_⟩
  rintro c st hc held rfl name
  have own : Own jarSchema [.model ⟨0⟩] ⟨0⟩ fillJar.2.heap st.heap w (.record ⟨5⟩) :=
    Or.inr ⟨label.1, fun passes => label.2 ((common _ rfl).2 passes).2⟩
  refine (detached c st _ hc rfl ?_ (.single (.insert own "text" ?_))).2.2 name
  · rw [held, kept]
    exact List.forall_mem_singleton.2 there
  · exact st.heap.usable_of_isScalar _ rfl

/-- The weight in what is got as the extras of the jar. -/
def weightGot (h : Heap) : Value :=
  match get ⟨0⟩ "extras" ⟨jarSchema, [.model ⟨0⟩]⟩ ⟨h, .throwing, []⟩ with
  | (.ok (.record r), st) => (st.heap.fields r).get "weight"
  | _ => .undefined

/-- A lid, the extras and the note are parts of the snapshot and of the jar.  What is stored in the
extras of the snapshot is got of the jar. -/
theorem jarSnapshot_shares_extras :
    jarSchema.Stratified ∧ jarSchema.Free (.model ⟨2⟩) ∧
      (jarSchema.type ⟨2⟩).isStructured = true ∧ Planted jarSchema ⟨2⟩ ⟨0⟩ fillJar.2.heap ∧
      (∀ u ∈ [Value.record ⟨1⟩, .record ⟨2⟩, .record ⟨3⟩],
        jarSnapshot.2.heap.Reachable [jarSnapshot.1] u ∧
          jarSnapshot.2.heap.Reachable [fillJar.2.heap.data ⟨0⟩] u) ∧
      weightGot jarSnapshot.2.heap = .string "light" ∧
      weightGot (jarSnapshot.2.heap.insert ⟨2⟩ "weight" (.string "heavy")) = .string "heavy" := by
  have whole : jarSnapshot.1 = .record ⟨6⟩ := by decide +kernel
  have data : fillJar.2.heap.data ⟨0⟩ = .record ⟨4⟩ := by decide +kernel
  have lid : .record ⟨1⟩ ∈ jarSnapshot.2.heap.children (.array ⟨0⟩) ∧
      .record ⟨1⟩ ∈ jarSnapshot.2.heap.children (.array ⟨1⟩) := by decide +kernel
  have parts : ∀ u ∈ [Value.array ⟨0⟩, .record ⟨2⟩, .record ⟨3⟩],
      u ∈ jarSnapshot.2.heap.children (.record ⟨4⟩) := by decide +kernel
  have parts' : ∀ u ∈ [Value.array ⟨1⟩, .record ⟨2⟩, .record ⟨3⟩],
      u ∈ jarSnapshot.2.heap.children (.record ⟨6⟩) := by decide +kernel
  refine ⟨jarSchema_built.stratified, jarSchema_built.free jarSchema_ruleFree _, by decide +kernel,
    fillJar_planted, ?_, by decide +kernel, by decide +kernel⟩
  rw [whole, data]
  have first : ∀ {v u : Value}, u ∈ jarSnapshot.2.heap.children v →
      jarSnapshot.2.heap.Reachable [v] u := fun mem => .child (.root List.mem_cons_self) mem
  simp only [List.forall_mem_cons] at parts parts' ⊢
  exact ⟨⟨.child (first parts'.1) lid.2, .child (first parts.1) lid.1⟩,
    ⟨first parts'.2.1, first parts.2.1⟩, ⟨first parts'.2.2.1, first parts.2.2.1⟩,
    fun _ mem => absurd mem List.not_mem_nil⟩

end Snapshot

end Overlay
