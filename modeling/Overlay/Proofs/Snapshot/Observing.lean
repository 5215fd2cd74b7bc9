import Overlay.Proofs.Engine.Acts
import Overlay.Proofs.Engine.Readable
import Overlay.Proofs.Interchange.Copies
import Overlay.Proofs.Snapshot.Noting

/-!
# Snapshots observe

Taking a snapshot looks at the list of diagnostics only to append to it, so it does the same whether
there is a list or not.  What it leaves behind are copies, and the copy of a record has some of the
keys of the record, in the same order.

* `Engine.Arises` : what a program may have at hand, whatever hooks its types bring;
* `Engine.Arises.shaped` : whatever it does, models of types with properties wrap records;
* `Snapshot.Observes` : an action that is the same for every list of diagnostics;
* `Snapshot.take_observes` : **snapshots are pure observations.**
-/

namespace Overlay

/-! ### What a program may have at hand -/

/-- There are no instances of the type. -/
def Heap.Without (h : Heap) (t : TypeId) : Prop := ∀ m, h.Holds (.model m) → h.type m ≠ t

theorem Heap.Shaped.addModel {s : Schema} {h : Heap} {new : ModelType} (shaped : h.Shaped s)
    (without : new.isStructured = true → h.Without s.nextModel) :
    h.Shaped (s.addModel new).2 := by
  intro m hm structured
  rw [Schema.type_addModel] at structured
  split at structured
  · rename_i place
    exact absurd (congrArg TypeId.mk place) (without structured m hm)
  · exact shaped m hm structured

namespace Engine

/-- What a program may have at hand: the types that it has made, with any hooks, and the heap.  It
starts with the root alone and nothing in the heap. -/
inductive Arises : Schema → Heap → Prop
  /-- Nothing has happened. -/
  | start : Arises .initial .empty
  /-- It does something with types, models and data, with any options. -/
  | act {s : Schema} (a : Act) {c : Context} {st : State} (before : Arises s st.heap)
      (types : c.schema = s) : Arises s (a.run c st).2.heap
  /-- It does anything to its records and arrays. -/
  | build {s : Schema} {h h' : Heap} (before : Arises s h) (models : h'.models = h.models) :
      Arises s h'
  /-- It derives a type, of which there are no instances before that. -/
  | derive {s s' : Schema} {h : Heap} {base t : TypeId} {ext : Extension} {scope : Scope}
      (before : Arises s h) (known : base.index < s.models.size) (new : h.Without s.nextModel)
      (result : s.derive base ext scope = .ok (t, s')) : Arises s' h
  /-- It makes an enumeration. -/
  | enumerate {s s' : Schema} {h h' : Heap} {spec : Enumeration.Spec} {e : Enumeration}
      (before : Arises s h) (result : Enumeration.define spec s h = .ok (e, s', h')) : Arises s' h'
  /-- It makes an adapter. -/
  | adapter {s : Schema} {h : Heap} (a : AdapterType) (before : Arises s h) :
      Arises (s.addAdapter a).2 h

namespace Arises

variable {s : Schema} {h : Heap}

theorem assembled (arises : Arises s h) : s.Assembled := by
  induction arises with
  | start => exact .initial
  | act _ _ _ ih => exact ih
  | build _ _ ih => exact ih
  | derive _ known _ result ih => exact ih.derive known result
  | enumerate _ result ih => exact ih.enumerate result
  | adapter a _ ih => exact ih.adapter a

/-- Models of types with properties wrap records. -/
theorem shaped (arises : Arises s h) : h.Shaped s := by
  induction arises with
  | start => exact fun m hm => absurd hm (Nat.not_lt_zero _)
  | @act s a c st before types ih =>
    exact (a.steady.steps False c st types False.elim).1.shaped ih
  | build _ models ih =>
    intro m hm structured
    unfold Heap.Holds Heap.type Heap.data at *
    rw [models] at hm structured ⊢
    exact ih m hm structured
  | @derive s s' h base t ext scope before known new result ih =>
    rcases declared : declareAll scope ext.properties with e | ps
    · unfold Schema.derive at result
      rw [declared] at result
      cases result
    · rw [Schema.derive_schema declared result]
      exact ih.addModel fun _ => new
  | @enumerate s s' h h' spec e before result ih =>
    have place : (s.type s.nextModel).isStructured = false := by
      rw [Schema.type_of_size_le (t := s.nextModel) (Nat.le_refl _)]
      rfl
    obtain ⟨steps, -⟩ := addInstances_steps False place spec.values (h := h) fun _ _ => False.elim
    obtain ⟨-, rfl, rfl, rfl⟩ := Enumeration.define_ok result
    refine (steps.shaped ih).addModel fun structured => ?_
    -- enumerations have the properties of the root, which are none
    have plain : (s.type .root).isStructured = true := structured
    rw [before.assembled.root] at plain
    cases plain
  | adapter a _ ih => exact ih

/-- A program derives a type with declarations that use no names, before it makes any models. -/
theorem extend (arises : Arises s h) (base : TypeId) (ext : Extension) {ps : List Property}
    (known : base.index < s.models.size) (declared : declareAll .none ext.properties = .ok ps)
    (empty : h.models.size = 0) :
    Arises (s.addModel (.extended base (s.type base) ext ps)).2 h := by
  have result : s.derive base ext .none =
      .ok (s.addModel (.extended base (s.type base) ext ps)) := by
    unfold Schema.derive
    rw [declared]
    rfl
  refine arises.derive known (fun m hm => ?_) result
  exact absurd hm (by simp [Heap.Holds, empty])

/-- A program does something with what it has at hand. -/
theorem does (arises : Arises s h) (a : Act) {held : List Value} {options : Options}
    {result : Except Fault Value × State} (run : a.run ⟨s, held⟩ ⟨h, options, []⟩ = result) :
    Arises s result.2.heap := by
  subst run
  let st : State := ⟨h, options, []⟩
  have before : Arises s st.heap := arises
  exact .act a before rfl

end Arises

end Engine

namespace Snapshot

variable {s : Schema} {h : Heap} {c : Context} {st : State}

/-! ### The same for every list -/

/-- Whether there is a list of diagnostics or not, the action does the same, and it appends the
errors of the same keys. -/
def Observes {α : Type} (act : Action α) : Prop :=
  ∀ (c : Context) (h : Heap), ∃ (a : α) (h' : Heap) (keys : List String),
    ∀ ds, act c ⟨h, ds⟩ = (a, ⟨h', noting ds (keys.map .unrecognizedKey)⟩)

namespace Observes

variable {α β : Type}

theorem of_silent {act : Action α} (silent : ∀ (c : Context) (h : Heap), ∃ (a : α) (h' : Heap),
    ∀ ds, act c ⟨h, ds⟩ = (a, ⟨h', ds⟩)) : Observes act := by
  intro c h
  obtain ⟨a, h', run⟩ := silent c h
  exact ⟨a, h', [], fun ds => by rw [run, List.map_nil, noting_nil]⟩

theorem pure (a : α) : Observes (Pure.pure a : Action α) :=
  .of_silent fun _ h => ⟨a, h, fun _ => rfl⟩

theorem bind {act : Action α} {next : α → Action β} (first : Observes act)
    (rest : ∀ a, Observes (next a)) : Observes (act >>= next) := by
  intro c h
  obtain ⟨a, h₁, keys, run⟩ := first c h
  obtain ⟨b, h₂, keys', run'⟩ := rest a c h₁
  refine ⟨b, h₂, keys ++ keys', fun ds => ?_⟩
  rw [bind_run, run, run', noting_noting, List.map_append]

/-- After a look at the state, only the heap may matter. -/
theorem look {next : State → Action α} (rest : ∀ h, Observes (next ⟨h, none⟩))
    (same : ∀ h ds, next ⟨h, ds⟩ = next ⟨h, none⟩) : Observes (MonadState.get >>= next) := by
  intro c h
  obtain ⟨a, h', keys, run⟩ := rest h c h
  refine ⟨a, h', keys, fun ds => ?_⟩
  rw [← run, ← same h ds]
  rfl

theorem read {next : Context → Action α} (rest : ∀ c, Observes (next c)) :
    Observes (MonadReader.read >>= next) := fun c h => rest c c h

end Observes

theorem wrapper?_observes (r : RecordId) : Observes (wrapper? r) :=
  .of_silent fun c h => ⟨h.wrapper? c.roots r, h, fun ds => wrapper?_run r c ⟨h, ds⟩⟩

theorem freshArray_observes (vs : List Value) : Observes (freshArray vs) :=
  .of_silent fun _ h => ⟨.array (h.addArray vs).1, (h.addArray vs).2, fun _ => rfl⟩

theorem freshRecord_observes (es : List (String × Value)) : Observes (freshRecord es) :=
  .of_silent fun _ h => ⟨.record (h.recordOf es).1, (h.recordOf es).2, fun _ => rfl⟩

theorem noteKey_observes (key : String) : Observes (noteKey key) :=
  fun _ h => ⟨(), h, [key], fun _ => rfl⟩

theorem each_observes {copy : Value → Action Value} (hcopy : ∀ v, Observes (copy v))
    (vs : List Value) : Observes (each copy vs) := by
  induction vs with
  | nil => exact .pure _
  | cons v vs ih => exact .bind (hcopy v) fun _ => .bind ih fun _ => .pure _

theorem entriesOf_observes {copy : Property → Value → Action Value}
    (hcopy : ∀ p v, Observes (copy p v)) (type : ModelType) (es : List (String × Value)) :
    Observes (entriesOf copy type es) := by
  induction es with
  | nil => exact .pure _
  | cons e es ih =>
    obtain ⟨key, v⟩ := e
    unfold entriesOf
    split
    · exact ih
    · split
      · split
        · exact .bind (hcopy _ v) fun _ => .bind ih fun _ => .pure _
        · exact ih
      · split
        · exact .bind ih fun _ => .pure _
        · exact .bind (noteKey_observes key) fun _ => ih

theorem dataOf_observes {copy : Property → Value → Action Value}
    (hcopy : ∀ p v, Observes (copy p v)) (t : TypeId) (data : Value) :
    Observes (dataOf copy t data) := by
  refine .read fun c => ?_
  dsimp only
  split
  · exact .look (fun _ => .bind (entriesOf_observes hcopy _ _) fun _ => freshRecord_observes _)
      fun _ _ => rfl
  · exact .pure _

theorem modelOf_observes {copy : Property → Value → Action Value}
    (hcopy : ∀ p v, Observes (copy p v)) (m : ModelId) : Observes (modelOf copy m) :=
  .look (fun _ => dataOf_observes hcopy _ _) fun _ _ => rfl

theorem within_observes (depth : Nat) (p : Option Property) (v : Value) :
    Observes (within depth p v) := by
  induction depth generalizing p v with
  | zero => exact .pure _
  | succ depth ih =>
    unfold within
    split
    · exact .look (fun _ => .bind (each_observes (ih _) _) fun _ => freshArray_observes _)
        fun _ _ => rfl
    · exact modelOf_observes (fun p => ih (some p)) _
    · refine .bind (wrapper?_observes _) fun m => ?_
      split
      · exact modelOf_observes (fun p => ih (some p)) _
      · split
        · exact dataOf_observes (fun p => ih (some p)) _ _
        · exact .pure _
    · exact .pure _

/-! ### The keys of a copy -/

/-- The entries that persist have keys of the record that are not reserved, in the same order. -/
theorem entriesOf_keys (copy : Property → Value → Action Value) (type : ModelType)
    (es : List (String × Value)) (c : Context) (st : State) :
    ((entriesOf copy type es c st).1.map Prod.fst).Sublist (es.map Prod.fst) ∧
      ∀ key ∈ (entriesOf copy type es c st).1.map Prod.fst, isReserved key = false := by
  induction es generalizing st with
  | nil => exact ⟨.slnil, fun _ h => absurd h List.not_mem_nil⟩
  | cons e es ih =>
    obtain ⟨key, v⟩ := e
    have skip : ∀ st, ((entriesOf copy type es c st).1.map Prod.fst).Sublist
        (((key, v) :: es).map Prod.fst) ∧
          ∀ key ∈ (entriesOf copy type es c st).1.map Prod.fst, isReserved key = false :=
      fun st => ⟨(ih st).1.cons _, (ih st).2⟩
    have keep : ∀ st w, isReserved key = false →
        (((key, w) :: (entriesOf copy type es c st).1).map Prod.fst).Sublist
          (((key, v) :: es).map Prod.fst) ∧
          ∀ k ∈ ((key, w) :: (entriesOf copy type es c st).1).map Prod.fst, isReserved k = false :=
      fun st w hk => ⟨(ih st).1.cons_cons _, List.forall_mem_cons.2 ⟨hk, (ih st).2⟩⟩
    unfold entriesOf
    cases data : isReserved key with
    | true => exact skip st
    | false =>
      rw [if_neg Bool.false_ne_true]
      cases type.property? key with
      | some p =>
        dsimp only
        split
        · exact keep _ _ data
        · exact skip st
      | none =>
        dsimp only
        split
        · exact keep st _ data
        · exact skip _

/-- The copy of a record that is known by a type with properties is a fresh record with keys of that
record. -/
theorem dataOf_fresh (copy : Property → Value → Action Value)
    (extending : ∀ p v, Extending (copy p v)) {t : TypeId} {r : RecordId}
    (structured : (c.schema.type t).isStructured = true) :
    ∃ r', (dataOf copy t (.record r) c st).1 = .record r' ∧ ¬st.heap.Holds (.record r') ∧
      (dataOf copy t (.record r) c st).2.heap.Holds (.record r') ∧
      ((dataOf copy t (.record r) c st).2.heap.fields r').keys.Sublist (st.heap.fields r).keys ∧
      ∀ key ∈ ((dataOf copy t (.record r) c st).2.heap.fields r').keys, isReserved key = false := by
  obtain ⟨sub, data⟩ := entriesOf_keys copy (c.schema.type t) (st.heap.fields r).entries c st
  have cells := entriesOf_extending extending (c.schema.type t) (st.heap.fields r).entries c st
  obtain ⟨es, st', run⟩ : ∃ es st',
      entriesOf copy (c.schema.type t) (st.heap.fields r).entries c st = (es, st') := ⟨_, _, rfl⟩
  rw [run] at sub data cells
  rw [dataOf_record, if_pos structured, run]
  have fields : (st'.heap.recordOf es).2.fields (st'.heap.recordOf es).1 = .ofList es :=
    (st'.heap.fields_addRecord _ _).trans (if_pos rfl)
  -- entries without a value are not stored
  have kept : (Fields.ofList es).keys.Sublist (es.map Prod.fst) := by
    rw [Fields.keys, Fields.entries_ofList_filter ((st.heap.fields r).nodup.sublist sub)]
    exact List.filter_sublist.map _
  refine ⟨(st'.heap.recordOf es).1, rfl, fun there => ?_, ?_, ?_, ?_⟩
  · exact absurd (Nat.lt_of_lt_of_le there cells.records.size_le) (Nat.lt_irrefl _)
  · exact Nat.lt_of_lt_of_eq (Nat.lt_succ_self _) (Array.size_push _).symm
  · show ((st'.heap.recordOf es).2.fields (st'.heap.recordOf es).1).keys.Sublist _
    rw [fields]
    exact kept.trans sub
  · show ∀ key ∈ ((st'.heap.recordOf es).2.fields (st'.heap.recordOf es).1).keys, _
    rw [fields]
    exact fun key hk => data key (kept.mem hk)

/-- **Snapshots are pure observations.**  Let a program have any types, with any hooks, and any heap
at hand, and take the snapshot of any value, with a list of diagnostics and without.  Both give the
same value and leave the same heap, where all records, with their fields and the models attached to
them, all arrays and all models are as they were.  The list keeps its entries and gains nothing but
keys that are not recognised.  The snapshot of a model of a type with properties is a record that
was not there before; its keys are among those of the model's record, in the same order, and none is
reserved. -/
theorem take_observes (arises : Engine.Arises s h) (roots : List Value) (v : Value) :
    ∃ w h', ∃ keys : List String, take s roots h none v = (w, ⟨h', none⟩) ∧
      (∀ ds, take s roots h (some ds) v =
        (w, ⟨h', some (ds ++ keys.map fun key => .recorded (.unrecognizedKey key))⟩)) ∧
      h.Extends h' ∧
      ∀ m, v = .model m → h.Holds (.model m) → (s.type (h.type m)).isStructured = true →
        ∃ r r', h.data m = .record r ∧ w = .record r' ∧ ¬h.Holds (.record r') ∧
          h'.Holds (.record r') ∧ (h'.fields r').keys.Sublist (h.fields r).keys ∧
          ∀ key ∈ (h'.fields r').keys, isReserved key = false := by
  obtain ⟨w, h', keys, run⟩ := within_observes (h.size + 1) none v ⟨s, roots⟩ h
  have without : take s roots h none v = (w, ⟨h', none⟩) := run none
  refine ⟨w, h', keys, without, fun ds => ?_, ?_, fun m hv hm structured => ?_⟩
  · refine (run (some ds)).trans ?_
    rw [noting, Option.map_some, List.map_map]
    rfl
  · have cells := take_extends s roots h none v
    rwa [without] at cells
  · subst hv
    obtain ⟨r, data⟩ := Value.exists_of_isRecord (arises.shaped m hm structured)
    have copied : take s roots h none (.model m) =
        dataOf (fun p => within h.size (some p)) (h.type m) (.record r) ⟨s, roots⟩ ⟨h, none⟩ :=
      congrArg (fun data => dataOf (fun p => within h.size (some p)) (h.type m) data ⟨s, roots⟩
        ⟨h, none⟩) data
    obtain ⟨r', value, fresh, there, sub, unreserved⟩ :=
      @dataOf_fresh ⟨s, roots⟩ ⟨h, none⟩ (fun p => within h.size (some p))
        (fun p v => within_extending _ _ _) _ r structured
    rw [← copied, without] at value there sub unreserved
    exact ⟨r, r', data, value, fresh, there, sub, unreserved⟩

/-! ### A packed crate -/

open Engine

/-- A crate is made of the record of one. -/
def packed : Except Fault Value × Overlay.State :=
  (Act.ask (.create ⟨2⟩ (some (.record ⟨0⟩)))).run ⟨crateSchema, []⟩
    ⟨crateData, ⟨some [], false, none⟩, []⟩

/-- A program declares items and crates, writes the record of a crate and makes the crate of it. -/
theorem packed_arises : Arises crateSchema packed.2.heap := by
  have types : Arises crateSchema .empty :=
    (Arises.start.extend .root itemExtension (by decide) rfl rfl).extend .root crateExtension
      (by decide) rfl rfl
  have data : Arises crateSchema crateData := types.build rfl
  exact data.does (.ask (.create ⟨2⟩ (some (.record ⟨0⟩)))) rfl

/-- The snapshot of the crate is a fourth record, with one of its keys, whether there is a list of
diagnostics or not. -/
theorem take_observes_crate :
    (∀ ds, (take crateSchema [] packed.2.heap (some ds) (.model ⟨0⟩)).1 =
      (take crateSchema [] packed.2.heap none (.model ⟨0⟩)).1) ∧
      (take crateSchema [] packed.2.heap none (.model ⟨0⟩)).1 = .record ⟨3⟩ ∧
      ((take crateSchema [] packed.2.heap none (.model ⟨0⟩)).2.heap.fields ⟨3⟩).keys.Sublist
        ["items", "junk"] := by
  obtain ⟨w, h', keys, without, within, -, fresh⟩ := take_observes packed_arises [] (.model ⟨0⟩)
  obtain ⟨r, r', data, rfl, -, -, sub, -⟩ := fresh ⟨0⟩ rfl (by decide +kernel) (by decide +kernel)
  have there : packed.2.heap.data ⟨0⟩ = .record ⟨0⟩ := by decide +kernel
  obtain rfl : r = ⟨0⟩ := Value.record.inj (data.symm.trans there)
  have all : (packed.2.heap.fields ⟨0⟩).keys = ["items", "junk"] := by decide +kernel
  have value : (take crateSchema [] packed.2.heap none (.model ⟨0⟩)).1 = .record ⟨3⟩ := by
    decide +kernel
  rw [without] at value ⊢
  obtain rfl : r' = ⟨3⟩ := Value.record.inj value
  exact ⟨fun ds => by rw [within], rfl, all ▸ sub⟩

end Snapshot

end Overlay
