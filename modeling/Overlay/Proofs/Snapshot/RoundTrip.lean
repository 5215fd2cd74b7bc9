import Overlay.Proofs.Engine.Outcomes
import Overlay.Proofs.Plain.RoundTrip
import Overlay.Proofs.Snapshot.Copying

/-!
# Snapshots can be handed in again

A snapshot is a fresh record that shows the clean form of what its model stands for.  A new model is
made of it without objection, and the snapshot of that one shows the same.

* `Engine.Stands.rebuilt` : the snapshot of a model that stands for fields;
* `Engine.create_rebuilt` : a model of a snapshot;
* `Engine.create_take_create` : **constructing and cleaning round-trip.**
-/

namespace Overlay

/-- The values look the same, each in its heap: same shapes, same keys in the same order, same
scalars by their representation. -/
def Heap.Alike (h : Heap) (v : Value) (h' : Heap) (v' : Value) : Prop :=
  ∃ x, h.Shows (fun _ => True) [v] [x] ∧ h'.Shows (fun _ => True) [v'] [x]

namespace Tree

theorem constructed_record {s : Schema} {strict : Bool} {t : TypeId} {es out : Entries}
    (hstr : (s.type t).isStructured = true) (allowed : (s.type t).allowsInstances = true)
    (run : admitted s strict t es [] es = pure out) (name : Option String) :
    constructed s strict name t (record es) = pure (record out) := by
  unfold constructed
  rw [allowed, hstr]
  dsimp only
  rw [run, pure_bind]
  rfl

/-- A new model of a type with properties, to which nothing was objected, is around the fields that
were admitted. -/
theorem constructed_pure {s : Schema} {strict : Bool} {name : Option String} {t : TypeId}
    {x y : Tree} (hstr : (s.type t).isStructured = true)
    (h : constructed s strict name t x = pure y) :
    (s.type t).allowsInstances = true ∧ ∃ fields, y = record fields ∧
      admitted s strict t x.entries [] x.entries = pure fields := by
  unfold constructed at h
  cases allowed : (s.type t).allowsInstances with
  | false =>
    rw [allowed] at h
    exact absurd h Verdict.raise_ne_pure
  | true =>
    rw [allowed, hstr] at h
    refine ⟨rfl, ?_⟩
    have bare : (if x.isNothing then pure (record [])
        else Verdict.invalid name x >>= fun _ => pure (record [])) = (pure y : Verdict Tree) →
        y = record [] := by
      intro h
      split at h
      · exact (Verdict.pure_injective h).symm
      · obtain ⟨_, refused, -⟩ := Verdict.bind_eq_pure h
        exact absurd refused Verdict.invalid_ne_pure
    cases x with
    | record es =>
      obtain ⟨fields, admitted, rest⟩ := Verdict.bind_eq_pure h
      exact ⟨fields, (Verdict.pure_injective rest).symm, admitted⟩
    | leaf v => exact ⟨[], bare h, by unfold entries admitted; rfl⟩
    | array xs => exact ⟨[], bare h, by unfold entries admitted; rfl⟩

end Tree

namespace Snapshot.Rebuilt

open Heap

variable {s : Schema} {F : Value → Prop} {h h' : Heap} {t : TypeId} {r : RecordId} {es : Entries}
  {T : List Value}

/-- What a fresh record of copies shows. -/
theorem shows (b : Rebuilt s t F h h' r es T) :
    h'.Shows (fun _ => True) [.record r] [.record es] :=
  .record trivial b.keys (b.inside.laid.shows.mono fun _ _ => trivial) .nil

theorem shows_held (b : Rebuilt s t F h h' r es T) (held : ∀ u, F u → h.Holds u) :
    h'.Shows h'.Holds [.record r] [.record es] := by
  refine .record b.new b.keys (b.inside.laid.shows.mono ?_) .nil
  rintro u (hu | hu)
  · exact (held u hu).grows b.inside.more.grows
  · exact (b.inside.fresh u hu).1

/-- The copies are on offer: nothing has gone through them yet. -/
theorem offered (b : Rebuilt s t F h h' r es T) (held : ∀ u, F u → h.Holds u ∧ h.Free u) :
    Offered s h' F ((h'.fields r).keys.map (s.type t).slot?) (h'.fields r).values
      (es.map Prod.snd) T where
  laid := b.inside.laid
  nodup := b.inside.nodup
  held := fun u hu => (b.inside.fresh u hu).1
  free := b.inside.free
  shared := fun u hu => by
    obtain ⟨held, free⟩ := held u hu
    refine ⟨held.grows b.inside.more.grows, fun hT => (b.inside.fresh u hT).2 held, fun r e => ?_⟩
    subst e
    exact (b.inside.more.attached?_eq held).trans (free r rfl)

end Snapshot.Rebuilt

namespace Engine

open Heap Snapshot

variable {s : Schema} {c c' : Context} {st st' st₁ : State} {t : TypeId} {m : ModelId}
  {r : RecordId} {fields fields' es : Entries} {h h' : Heap} {F : Value → Prop} {T : List Value}

/-- The snapshot of a model that stands for fields, whatever is held. -/
theorem Stands.rebuilt (a : Stands s t r m fields h) (keyed : s.Keyed (.model t))
    (hstr : (s.type t).isStructured = true) (roots : List Value) (ds : Option (List Diagnostic)) :
    ∃ r' T, (take s roots h ds (.model m)).1 = .record r' ∧
      Rebuilt s t (fun u => Beside h r u ∧ h.Free u) h (take s roots h ds (.model m)).2.heap r'
        (Tree.cleanedEntries s t fields) T :=
  take_rebuilt hstr (fun _ hu => hu.1) a.type a.data a.held a.keys a.shows (a.knows keyed)

/-- If the verdict on a fresh record of copies has no objection, a model is made of it, and stands
for the fields of the verdict. -/
theorem create_rebuilt (hs : s.Stratified) (free : s.Free (.model t)) (hc : c.schema = s)
    (hstr : (s.type t).isStructured = true) (allowed : (s.type t).allowsInstances = true)
    (hp : st.options.property = none) (b : Rebuilt s t F h st.heap r es T)
    (held : ∀ u, F u → h.Holds u ∧ h.Free u)
    (admitted : Tree.admitted s st.options.strict t es [] es = pure fields) :
    ∃ m st', create t (some (.record r)) c st = (.ok m, st') ∧ Stands s t r m fields st'.heap := by
  obtain ⟨m, st', run, d, filled⟩ := create_filled hs free hc hp hstr allowed b.new b.out
    (fun hF => b.old (held _ hF).1) b.keys (b.offered held) admitted
  refine ⟨m, st', run, filled.stands (b.new.grows d.grows) ?_⟩
  rintro u (hu | hu)
  · refine ⟨((held u hu).1.grows b.inside.more.grows).grows d.grows, fun e => b.old ?_⟩
    exact e ▸ (held u hu).1
  · exact ⟨(b.inside.fresh u hu).1.grows d.grows, fun e => b.out (e ▸ hu)⟩

/-- **Constructing and cleaning round-trip.**  Let a type with properties be free of hooks, and none
of its properties be stored under the name or the storage key of another one, there and wherever it
leads.  Let a model of the type have been made of a fresh plain tree in throwing mode.  Then a model
is made of the snapshot of it as well, and the snapshot of that model looks the same, down to the
order of the keys; whatever is held when the snapshots are taken. -/
theorem create_take_create (hs : s.Stratified) (free : s.Free (.model t))
    (keyed : s.Keyed (.model t)) (hc : c.schema = s) (hstr : (s.type t).isStructured = true)
    (hp : st.options.property = none) (throwing : st.options.diagnostics = none)
    {data : Option Value} (run : create t data c st = (.ok m, st')) {cells : List Value}
    (trees : st.heap.Trees [data.getD .undefined] cells) (nodup : cells.Nodup)
    (held : ∀ v ∈ cells, st.heap.Holds v) {roots : List Value} {ds : Option (List Diagnostic)}
    {v : Value} {sn : Snapshot.State} (snap : take s roots st'.heap ds (.model m) = (v, sn))
    (hc' : c'.schema = s) (hp' : st₁.options.property = none)
    (strict : st₁.options.strict = st.options.strict) (heap : st₁.heap = sn.heap) :
    ∃ m' st₁', create t (some v) c' st₁ = (.ok m', st₁') ∧
      ∀ roots' ds' v' sn', take s roots' st₁'.heap ds' (.model m') = (v', sn') →
        sn.heap.Alike v sn'.heap v' := by
  obtain ⟨xs, sh⟩ := trees.shows
  obtain ⟨x, rfl⟩ := List.length_eq_one_iff.1 sh.length_eq.symm
  obtain ⟨y, -, quiet, -, standing⟩ := create_standing hs free hc hp hstr trees nodup held sh run
  have proper := (sh.proper x List.mem_cons_self).entries
  obtain ⟨allowed, fields, rfl, admitted⟩ := Tree.constructed_pure hstr (quiet throwing)
  obtain ⟨r, fields', e, stands⟩ := standing
  cases e
  obtain ⟨r₁, T₁, first, rebuilt⟩ := stands.rebuilt keyed hstr roots ds
  rw [snap] at first rebuilt
  subst first
  -- what the first model stands for lasts when it is cleaned and stored again
  obtain ⟨again, admitted', same⟩ := Tree.admitted_lasts hs keyed proper admitted
  obtain ⟨m', st₁', run', stands'⟩ := create_rebuilt hs free hc' hstr allowed hp' (heap ▸ rebuilt)
    (fun u hu => ⟨hu.1.1, hu.2⟩) (strict ▸ admitted')
  refine ⟨m', st₁', run', fun roots' ds' v' sn' snap' => ?_⟩
  obtain ⟨r₂, T₂, second, rebuilt'⟩ := stands'.rebuilt keyed hstr roots' ds'
  rw [snap'] at second rebuilt'
  subst second
  exact ⟨_, rebuilt.shows, same ▸ rebuilt'.shows⟩

/-! ### A label under its own key -/

/-- What declares a label with a number that is stored under another key. -/
def labels : Extension :=
  { Extension.empty with
    name := some "Label"
    properties := [("size", .detailed (some (.marker .number)) none (some "s") none none true)] }

/-- The number of a label. -/
def labelSize : Property := ⟨"size", "s", .builtin .number, [], none, none, true⟩

/-- The root and labels. -/
def labelSchema : Schema :=
  (Schema.initial.addModel (.extended .root .root labels [labelSize])).2

theorem labelSchema_regular : labelSchema.Regular := by
  have built : labelSchema.Built :=
    Schema.Built.initial.extend .root labels (by decide) ⟨rfl, nofun, rfl, rfl⟩ rfl (by decide)
  have listed : ∀ t ∈ labelSchema.models.toList, ∀ e ∈ t.properties.layers.flatMap (·.entries),
      ∀ e' ∈ t.properties.layers.flatMap (·.entries),
        (e.2.name = e'.2.name → e.2.storageKey = e'.2.storageKey) ∧
          (e.2.name ≠ e'.2.name →
            e.2.storageKey ≠ e'.2.name ∧ e.2.storageKey ≠ e'.2.storageKey) := by
    decide +kernel
  exact built.regular (by decide +kernel) fun t ht => ModelType.wellKeyed_of_listed (listed t ht)

/-- A record with a text under a key. -/
def labelData (key : String) : Heap := ⟨#[⟨.ofList [(key, .string "2")], none⟩], #[], #[]⟩

theorem labelData_trees {key : String}
    (he : ((labelData key).fields ⟨0⟩).values = [.string "2"]) :
    (labelData key).Trees [.record ⟨0⟩] [.record ⟨0⟩] := by
  have inside : (labelData key).Trees ((labelData key).fields ⟨0⟩).values [] := by
    rw [he]
    exact .scalar rfl .nil
  exact .record rfl inside .nil

/-- Makes a label of the record. -/
def makeLabel (key : String) : Except Fault ModelId × State :=
  create ⟨1⟩ (some (.record ⟨0⟩)) ⟨labelSchema, []⟩ ⟨labelData key, .throwing, []⟩

/-- The snapshot of a label in a heap. -/
def labelSnapshot (h : Heap) : Value × Snapshot.State :=
  take labelSchema [.model ⟨0⟩] h none (.model ⟨0⟩)

/-- A label that was made of a text under the name of its number has it under both keys, and so has
its snapshot.  A label is made of that again, with the same snapshot. -/
theorem create_take_create_label :
    (makeLabel "size").1 = .ok ⟨0⟩ ∧
      (labelSnapshot (makeLabel "size").2.heap).1 = .record ⟨1⟩ ∧
      ((labelSnapshot (makeLabel "size").2.heap).2.heap.fields ⟨1⟩).entries =
        [("size", .string "2"), ("s", .number (.ofInt 2))] ∧
      ∃ m st, create ⟨1⟩ (some (.record ⟨1⟩)) ⟨labelSchema, []⟩
          ⟨(labelSnapshot (makeLabel "size").2.heap).2.heap, .throwing, []⟩ = (.ok m, st) ∧
        ∀ roots ds v sn, take labelSchema roots st.heap ds (.model m) = (v, sn) →
          (labelSnapshot (makeLabel "size").2.heap).2.heap.Alike (.record ⟨1⟩) sn.heap v := by
  have made : (makeLabel "size").1 = .ok ⟨0⟩ := by decide +kernel
  have run : makeLabel "size" = (.ok ⟨0⟩, (makeLabel "size").2) := by rw [← made]
  have shown : (labelSnapshot (makeLabel "size").2.heap).1 = .record ⟨1⟩ := by decide +kernel
  have snap : labelSnapshot (makeLabel "size").2.heap =
      (.record ⟨1⟩, (labelSnapshot (makeLabel "size").2.heap).2) := by rw [← shown]
  refine ⟨made, shown, by decide +kernel, ?_⟩
  exact create_take_create labelSchema_regular.built.stratified
    (labelSchema_regular.modelFree _) (labelSchema_regular.modelKeyed _) rfl (by decide +kernel) rfl
    rfl run
    (labelData_trees rfl) (by decide) (by simp [Heap.Holds, labelData]) snap rfl rfl rfl
    (by with_reducible rfl)

end Engine

end Overlay
