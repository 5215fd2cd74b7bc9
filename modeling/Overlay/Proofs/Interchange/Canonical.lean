import Overlay.Proofs.Engine.Acts
import Overlay.Proofs.Interchange.Copies
import Overlay.Proofs.Plain.Cleaning

/-!
# Texts and snapshots

Writing a value as JSON and taking its snapshot are two walks over the same data.  Models are
written as their snapshots are; but a record that has a model attached is written as it is, whereas
its snapshot is that of the model.

* `Interchange.treeOf_eq_read` : what is written of a value is what is read of it as it is;
* `Interchange.Exposed` : the records that are written as they are and copied as models;
* `Engine.stringify_eq_clean_iff` : the text of a value is that of its snapshot just if that makes
  no difference to any of them.
-/

namespace Overlay

namespace Interchange

open Heap Snapshot

variable {c : Snapshot.Context} {h : Heap} {n : Nat} {v : Value} {st : Snapshot.State}

/-! ### What is written is what is read -/

section Parts

variable {tree : Value → Snapshot.Action Json}
  (htree : ∀ (v : Value) (st : Snapshot.State), Fit c st.heap → Given st.heap n v →
    After c st.heap (tree v c st).2.heap ∧ (tree v c st).1 = read c.schema st.heap c.roots .bare v)
include htree

theorem treeItems_read {vs : List Value} (fit : Fit c st.heap)
    (given : ∀ v ∈ vs, Given st.heap n v) :
    After c st.heap (treeItems tree vs c st).2.heap ∧
      (treeItems tree vs c st).1 = vs.map (read c.schema st.heap c.roots .bare) := by
  induction vs generalizing st with
  | nil => exact ⟨.refl fit, rfl⟩
  | cons v vs ih =>
    obtain ⟨hv, hvs⟩ := List.forall_mem_cons.1 given
    obtain ⟨first, shown⟩ := htree v st fit hv
    obtain ⟨rest, same⟩ := ih first.fit fun w hw => (hvs w hw).after fit first
    refine ⟨first.trans rest, congr (congrArg _ shown) (same.trans ?_)⟩
    exact List.map_congr_left fun w hw =>
      read_extends first.cells fit.closed fit.roots (hvs w hw).there (hvs w hw).nested _

theorem treeMembers_read {es : List (String × Value)} (fit : Fit c st.heap)
    (given : ∀ e ∈ es, Given st.heap n e.2) (stored : ∀ e ∈ es, e.2 ≠ .undefined) :
    After c st.heap (treeMembers tree es c st).2.heap ∧
      (treeMembers tree es c st).1 =
        readMembers st.heap (read c.schema st.heap c.roots) none es := by
  induction es generalizing st with
  | nil => exact ⟨.refl fit, rfl⟩
  | cons e es ih =>
    obtain ⟨key, v⟩ := e
    obtain ⟨hv, hes⟩ := List.forall_mem_cons.1 given
    obtain ⟨hs, hstored⟩ := List.forall_mem_cons.1 stored
    unfold treeMembers
    by_cases hk : isReserved key = true
    · rw [if_pos hk, readMembers_of_out (if_pos hk)]
      exact ih fit hes hstored
    · have there : View.bare.isVoid st.heap v = false :=
        Bool.eq_false_iff.2 fun e => hs (Value.isUndefined_iff.1 e)
      have inside : View.inside? none key = some .bare := by rw [View.inside?, if_neg hk]
      rw [if_neg hk, readMembers_of_inside inside there]
      obtain ⟨first, shown⟩ := htree v st fit hv
      obtain ⟨rest, same⟩ := ih first.fit (fun e he => (hes e he).after fit first) hstored
      refine ⟨first.trans rest, congr (congrArg _ (congrArg _ shown)) (same.trans ?_)⟩
      refine readMembers_congr (fun e he view => ?_) fun e he view => ?_
      · exact view.isVoid_extends first.cells (hes e he).there
      · exact read_extends first.cells fit.closed fit.roots (hes e he).there (hes e he).nested _

end Parts

theorem treeWithin_read (n : Nat) (v : Value) (st : Snapshot.State) (fit : Fit c st.heap)
    (given : Given st.heap n v) :
    After c st.heap (treeWithin n v c st).2.heap ∧
      (treeWithin n v c st).1 = read c.schema st.heap c.roots .bare v := by
  induction n generalizing v st with
  | zero => exact given.nested.elim
  | succ n ih =>
    cases v with
    | array a =>
      obtain ⟨a, same⟩ := treeItems_read ih fit fun w hw => given.child fit hw
      refine ⟨a, (congrArg Json.array same).trans ?_⟩
      exact (read_array fit.closed given.there given.nested .bare).symm
    | record r =>
      have each : ∀ e ∈ (st.heap.fields r).entries, Given st.heap n e.2 := fun e he =>
        given.child fit (List.mem_map.2 ⟨e, he, rfl⟩)
      obtain ⟨a, same⟩ := treeMembers_read ih fit each (st.heap.fields r).stored
      refine ⟨a, (congrArg Json.object same).trans ?_⟩
      exact (read_record fit.closed given.there given.nested .bare).symm
    | model m =>
      have data : st.heap.data m ∈ st.heap.children (.model m) := List.mem_cons_self
      -- the copy is nested no deeper than the data, and no deeper than there are cells
      obtain ⟨k, hk, hkn, inside⟩ : ∃ k, k ≤ st.heap.size ∧ k ≤ n ∧
          Given st.heap k (st.heap.data m) := by
        have bounded := given.nested.bounded fit.closed given.there _ data
        rcases Nat.le_total n st.heap.size with le | le
        · exact ⟨n, le, Nat.le_refl _, given.child fit data⟩
        · exact ⟨st.heap.size, Nat.le_refl _, le, fit.closed _ given.there _ data, bounded⟩
      obtain ⟨k, rfl⟩ : ∃ j, k = j + 1 := by
        cases k with
        | zero => exact inside.nested.elim
        | succ j => exact ⟨j, rfl⟩
      obtain ⟨a, copied⟩ := dataOf_copied (fun p => within_copied (Nat.le_of_succ_le hk) (some p))
        (st.heap.type m) (st.heap.data m) st fit inside
      obtain ⟨rest, same⟩ := ih _ _ a.fit ⟨copied.given.there, copied.given.nested.mono hkn⟩
      refine ⟨a.trans rest, same.trans (copied.shown.trans ?_)⟩
      exact (read_model fit.closed given.there given.nested .bare).symm
    | _ => exact ⟨.refl fit, rfl⟩

variable {s : Schema} {roots : List Value}

/-- **What is written of a value is what is read of it as it is.** -/
theorem treeOf_eq_read (fit : Fit ⟨s, roots⟩ h) (hv : h.Holds v) (acyclic : h.Acyclic v) :
    treeOf s roots h v = read s h roots .bare v :=
  (treeWithin_read (c := ⟨s, roots⟩) (h.size + 1) v ⟨h, none⟩ fit
    ⟨hv, nested_of_acyclic fit.closed acyclic hv⟩).2

theorem take_copied (fit : Fit ⟨s, roots⟩ h) (hv : h.Holds v) (acyclic : h.Acyclic v)
    (ds : Option (List Diagnostic)) :
    After ⟨s, roots⟩ h (take s roots h ds v).2.heap ∧
      Copied ⟨s, roots⟩ h (take s roots h ds v).2.heap (h.size + 1) (.taken none) v
        (take s roots h ds v).1 :=
  within_copied (c := ⟨s, roots⟩) (Nat.le_refl (h.size + 1)) none v ⟨h, ds⟩ fit
    ⟨hv, nested_of_acyclic fit.closed acyclic hv⟩

/-! ### What is held besides -/

/-- Holding another value makes no difference if it leads to no other model. -/
theorem wrapper?_cons (fit : Fit ⟨s, roots⟩ h) {u : Value} (hu : h.Holds u)
    (leads : ∀ m, h.Reachable [u] (.model m) → h.Reachable roots (.model m)) (r : RecordId) :
    h.wrapper? (u :: roots) r = h.wrapper? roots r := by
  have held : ∀ m, (h.reach (u :: roots)).contains (.model m) =
      (h.reach roots).contains (.model m) := by
    intro m
    rw [Bool.eq_iff_iff, List.contains_iff_mem, List.contains_iff_mem,
      model_mem_reach_iff fit.closed.closedOn (List.forall_mem_cons.2 ⟨hu, fit.roots⟩),
      model_mem_reach_iff fit.closed.closedOn fit.roots]
    refine ⟨fun reach => reach.of_cons.elim (leads m) id, fun reach => ?_⟩
    exact reach.of_roots fun _ hw => .root (List.mem_cons_of_mem _ hw)
  unfold Heap.wrapper? attachedIn?
  simp only [held]

theorem treeOf_cons (fit : Fit ⟨s, roots⟩ h) (hv : h.Holds v) (acyclic : h.Acyclic v)
    (leads : ∀ m, h.Reachable [v] (.model m) → h.Reachable roots (.model m)) :
    treeOf s (v :: roots) h v = read s h roots .bare v := by
  have more : Fit ⟨s, v :: roots⟩ h :=
    ⟨fit.closed, fit.tied, List.forall_mem_cons.2 ⟨hv, fit.roots⟩⟩
  rw [treeOf_eq_read more hv acyclic, read_roots (wrapper?_cons fit hv leads)]

theorem wrapper?_cons_of_mem (fit : Fit ⟨s, roots⟩ h) (hv : v ∈ roots) (r : RecordId) :
    h.wrapper? (v :: roots) r = h.wrapper? roots r :=
  wrapper?_cons fit (fit.roots v hv) (fun _ reach => .trans (.root hv) reach) r

/-- **What is written of a snapshot is what is read of the value as a snapshot takes it.** -/
theorem treeOf_take (fit : Fit ⟨s, roots⟩ h) (hv : v ∈ roots) (acyclic : h.Acyclic v)
    (ds : Option (List Diagnostic)) :
    treeOf s ((take s (v :: roots) h ds v).1 :: roots) (take s (v :: roots) h ds v).2.heap
      (take s (v :: roots) h ds v).1 = read s h roots (.taken none) v := by
  have more : Fit ⟨s, v :: roots⟩ h :=
    ⟨fit.closed, fit.tied, List.forall_mem_cons.2 ⟨fit.roots v hv, fit.roots⟩⟩
  obtain ⟨a, copied⟩ := take_copied more (fit.roots v hv) acyclic ds
  have after : Fit ⟨s, roots⟩ (take s (v :: roots) h ds v).2.heap :=
    ⟨a.fit.closed, a.fit.tied, (List.forall_mem_cons.1 a.fit.roots).2⟩
  have text := treeOf_cons after copied.given.there copied.given.nested.acyclic fun m reach => by
    -- a model that the copy leads to was there, and the value led to it
    have there : h.Holds (.model m) := by
      have := reach.holds a.fit.closed.closedOn (List.forall_mem_singleton.2 copied.given.there)
      rwa [Heap.Holds, a.models] at this
    have before := Reachable.trans (.root hv) (copied.leads _ reach there)
    exact (a.cells.reachable_iff fit.closed fit.roots).2 before
  rw [text, ← read_roots (wrapper?_cons_of_mem after hv), copied.shown,
    read_roots (wrapper?_cons_of_mem fit hv)]

/-! ### Where the two walks differ -/

/-- The record is the value, or an element of arrays in it. -/
inductive Exposed (h : Heap) : Value → RecordId → Prop
  /-- The record itself. -/
  | here (r : RecordId) : Exposed h (.record r) r
  /-- Through an array. -/
  | element {a : ArrayId} {v : Value} {r : RecordId} (mem : v ∈ h.items a)
      (inside : Exposed h v r) : Exposed h (.array a) r

theorem Exposed.reachable {r : RecordId} (exposed : Exposed h v r) :
    h.Reachable [v] (.record r) := by
  induction exposed with
  | here r => exact .root List.mem_cons_self
  | element mem _ ih => exact ih.through mem

/-- The model found from a record is read like the record under the type of the model. -/
theorem read_wrapper {r : RecordId} {m : ModelId} (fit : Fit ⟨s, roots⟩ h)
    (given : Given h n (.record r)) (hm : h.wrapper? roots r = some m) :
    read s h roots (.taken none) (.record r) = read s h roots .bare (.model m) := by
  obtain ⟨there, data, -⟩ := fit.tied r m (Option.filter_eq_some_iff.1 hm).1
  have nested : h.Nested (n + 1) (.model m) :=
    List.forall_mem_singleton.2 (data ▸ given.nested)
  rw [read_model fit.closed there nested, data]
  exact read_record_congr (by simp only [View.type?, known?, hm, Option.map_some])

/-- A value is read as it is and as a snapshot takes it in the same way just if that holds of the
records that have a model attached, in it or in arrays in it. -/
theorem read_bare_eq_taken_iff (fit : Fit ⟨s, roots⟩ h) (given : Given h n v) :
    read s h roots .bare v = read s h roots (.taken none) v ↔
      ∀ r m, Exposed h v r → h.wrapper? roots r = some m →
        read s h roots .bare (.record r) = read s h roots .bare (.model m) := by
  induction n generalizing v with
  | zero => exact given.nested.elim
  | succ n ih =>
    cases v with
    | array a =>
      rw [read_array fit.closed given.there given.nested,
        read_array fit.closed given.there given.nested, Json.array.injEq, List.map_inj_left]
      constructor
      · rintro same r m ⟨⟩ hm
        rename_i w hw inside
        exact (ih (given.child fit hw)).1 (same w hw) r m inside hm
      · exact fun same w hw => (ih (given.child fit hw)).2 fun r m inside =>
          same r m (.element hw inside)
    | record r =>
      constructor
      · rintro same r m ⟨⟩ hm
        exact same.trans (read_wrapper fit given hm)
      · intro same
        rcases hm : h.wrapper? roots r with _ | m
        · exact read_record_congr (by simp only [View.type?, known?, hm, Option.map_none,
            Option.bind_none])
        · exact (same r m (.here r) hm).trans (read_wrapper fit given hm).symm
    | _ => exact ⟨fun _ _ _ exposed _ => (by cases exposed), fun _ => rfl⟩

theorem keeps_of_inside? {type : ModelType} {key : String} {view : View}
    (inside : View.inside? (some type) key = some view) : type.keeps key = true := by
  unfold View.inside? at inside
  unfold ModelType.keeps
  split at inside
  · cases inside
  · rename_i hk
    rw [Bool.not_eq_true] at hk
    rw [hk]
    dsimp only at inside
    cases hp : type.property? key with
    | none =>
      rw [hp] at inside
      exact of_not_not fun h => nomatch (if_neg h).symm.trans inside
    | some p =>
      rw [hp] at inside
      exact of_not_not fun h => nomatch (if_neg h).symm.trans inside

end Interchange

namespace Engine

open Interchange

/-- What is written of a value as JSON while it is in use. -/
def written (c : Context) (st : State) (v : Value) : Json :=
  treeOf c.schema (v :: (c.held ++ c.schema.heldValues)) st.heap v

/-- The records in the value that have a model are written like their models. -/
def WrittenAsModels (c : Context) (st : State) (v : Value) : Prop :=
  ∀ r m, Exposed st.heap v r → st.heap.wrapper? (c.held ++ c.schema.heldValues) r = some m →
    written c st (.record r) = written c st (.model m)

variable {c : Context} {st : State} {v : Value}

theorem stringify_run (v : Value) (pretty : Bool) (c : Context) (st : State) :
    (Act.stringify v pretty).run c st =
      (.ok (.string (if pretty then (written c st v).pretty else (written c st v).compact)), st) :=
  rfl

theorem fit_of_inOrder (order : InOrder c.schema st.heap)
    (held : ∀ w ∈ c.held ++ c.schema.heldValues, st.heap.Holds w) :
    Fit ⟨c.schema, c.held ++ c.schema.heldValues⟩ st.heap :=
  ⟨order.closed, order.tied, held⟩

theorem written_eq_read (order : InOrder c.schema st.heap)
    (held : ∀ w ∈ c.held ++ c.schema.heldValues, st.heap.Holds w)
    (reach : st.heap.Reachable (c.held ++ c.schema.heldValues) v) (acyclic : st.heap.Acyclic v) :
    written c st v = read c.schema st.heap (c.held ++ c.schema.heldValues) .bare v :=
  treeOf_cons (fit_of_inOrder order held) (reach.holds order.closed.closedOn held) acyclic
    fun _ inside => reach.trans inside

theorem writtenAsModels_iff (order : InOrder c.schema st.heap)
    (held : ∀ w ∈ c.held ++ c.schema.heldValues, st.heap.Holds w) (hv : v ∈ c.held)
    (acyclic : st.heap.Acyclic v) :
    WrittenAsModels c st v ↔
      read c.schema st.heap (c.held ++ c.schema.heldValues) .bare v =
        read c.schema st.heap (c.held ++ c.schema.heldValues) (.taken none) v := by
  have mem : v ∈ c.held ++ c.schema.heldValues := List.mem_append_left _ hv
  have nested := Heap.nested_of_acyclic order.closed acyclic (held v mem)
  rw [read_bare_eq_taken_iff (fit_of_inOrder order held) ⟨held v mem, nested⟩]
  refine forall_congr' fun r => forall_congr' fun m => forall_congr' fun exposed =>
    forall_congr' fun hm => ?_
  have data : st.heap.data m = .record r :=
    (order.tied r m (Option.filter_eq_some_iff.1 hm).1).2.1
  have inside : st.heap.Nested (st.heap.size + 2) (.model m) :=
    List.forall_mem_singleton.2 (data ▸ nested.reachable exposed.reachable)
  have found : st.heap.Reachable (c.held ++ c.schema.heldValues) (.model m) :=
    (Heap.model_mem_reach_iff order.closed.closedOn held).1
      (List.contains_iff_mem.1 (Option.filter_eq_some_iff.1 hm).2)
  rw [written_eq_read order held (Heap.Reachable.trans (.root mem) exposed.reachable)
    (nested.reachable exposed.reachable).acyclic, written_eq_read order held found inside.acyclic]

/-- **What is written of a value is what is written of its snapshot just if the records in it that
have a model are written like their models**, wherever the value comes from and whatever it shares;
then the two texts are the same, on one line or indented.  So this holds of scalars, models, records
without a model and arrays of these; and of a model, only keys that its type keeps are written. -/
theorem stringify_eq_clean_iff (order : InOrder c.schema st.heap)
    (held : ∀ w ∈ c.held ++ c.schema.heldValues, st.heap.Holds w) (hv : v ∈ c.held)
    (acyclic : st.heap.Acyclic v) :
    ∃ w st', (Act.copy v none).run c st = (.ok w, st') ∧
      (written c st v = written c st' w ↔ WrittenAsModels c st v) ∧
      (WrittenAsModels c st v → ∀ pretty, ∃ text,
        (Act.stringify v pretty).run c st = (.ok (.string text), st) ∧
          (Act.stringify w pretty).run c st' = (.ok (.string text), st')) ∧
      ∀ m r, v = .model m → st.heap.data m = .record r →
        (c.schema.type (st.heap.type m)).isStructured = true →
        ∃ members, written c st v = .object members ∧
          ∀ e ∈ members, (c.schema.type (st.heap.type m)).keeps e.1 = true := by
  have fit := fit_of_inOrder order held
  have mem : v ∈ c.held ++ c.schema.heldValues := List.mem_append_left _ hv
  have there := held v mem
  have nested := Heap.nested_of_acyclic order.closed acyclic there
  have shown := written_eq_read order held (.root mem) acyclic
  let copy := Snapshot.take c.schema (v :: (c.held ++ c.schema.heldValues)) st.heap none v
  let after : State := { st with heap := copy.2.heap }
  have clean : written c after copy.1 = _ := treeOf_take fit mem acyclic none
  have agree : written c st v = written c after copy.1 ↔ WrittenAsModels c st v := by
    rw [writtenAsModels_iff order held hv acyclic, shown, clean]
  refine ⟨copy.1, after, rfl, agree, fun same pretty => ⟨_, stringify_run v pretty c st, ?_⟩, ?_⟩
  · rw [stringify_run, agree.2 same]
  · rintro m r rfl data structured
    have inside : st.heap.data m ∈ st.heap.children (.model m) := List.mem_cons_self
    have known : (View.under (st.heap.type m)).type? c.schema st.heap
        (c.held ++ c.schema.heldValues) r = some (c.schema.type (st.heap.type m)) :=
      if_pos structured
    rw [shown, read_model fit.closed there nested, data, read_record fit.closed
      (data ▸ fit.closed _ there _ inside) (data ▸ nested _ inside), known]
    refine ⟨_, rfl, fun e he => ?_⟩
    obtain ⟨f, -, hf⟩ := List.mem_filterMap.1 he
    obtain ⟨view, hview, rfl⟩ := Option.map_eq_some_iff.1 hf
    exact keeps_of_inside? (Option.filter_eq_some_iff.1 hview).1

/-! ### Notes -/

/-- What declares a note: its text, and a draft that does not persist. -/
def notes : Extension :=
  { Extension.empty with
    name := some "Note"
    properties := [
      ("text", .marker .string),
      ("draft", .detailed (some (.marker .string)) none none none none false)] }

/-- The root and notes. -/
def noteSchema : Schema :=
  (Schema.initial.addModel (.extended .root .root notes [
    ⟨"text", "text", .builtin .string, [], none, none, true⟩,
    ⟨"draft", "draft", .builtin .string, [], none, none, false⟩])).2

/-- A record with a text and a draft. -/
def noteData : Heap :=
  (Heap.empty.addRecord (.ofList [("text", .string "done"), ("draft", .string "to do")])).2

/-- It is wrapped as a note. -/
def noted : Except Fault Value × State :=
  (Act.ask (.wrap (.model ⟨1⟩) (.record ⟨0⟩))).run ⟨noteSchema, [.record ⟨0⟩]⟩
    ⟨noteData, .throwing, []⟩

/-- The record and the note are in use. -/
def noteInUse : Context := ⟨noteSchema, [.record ⟨0⟩, .model ⟨0⟩]⟩

theorem noted_lives : Lives noteSchema noted.2.heap := by
  have made : Lives noteSchema .empty :=
    Lives.start.extend .root notes (by decide) ⟨rfl, nofun, rfl, rfl⟩ rfl (by decide)
  have built : Lives noteSchema noteData :=
    made.writes _ (Heap.closed_of_cells (by decide +kernel))
  exact built.does (.ask (.wrap (.model ⟨1⟩) (.record ⟨0⟩))) (by decide +kernel) rfl

/-- The note is written like its snapshot. -/
theorem stringify_eq_clean_iff_noted :
    ∃ w st', (Act.copy (.model ⟨0⟩) none).run noteInUse noted.2 = (.ok w, st') ∧
      written noteInUse noted.2 (.model ⟨0⟩) = written noteInUse st' w := by
  have nested : noted.2.heap.Nested 3 (.model ⟨0⟩) := by decide +kernel
  obtain ⟨w, st', run, agree, -, -⟩ := @stringify_eq_clean_iff noteInUse noted.2 (.model ⟨0⟩)
    noted_lives.inOrder (by decide +kernel) (by decide) nested.acyclic
  exact ⟨w, st', run, agree.2 fun _ _ exposed => nomatch exposed⟩

example : ((Act.stringify (.model ⟨0⟩) false).run noteInUse noted.2).1 =
    .ok (.string "\x7b\"text\":\"done\"\x7d") := by
  decide +kernel

/-- The record of the note is written with the draft, and its snapshot without it. -/
theorem draft_written :
    Lives noteSchema noted.2.heap ∧
      ((Act.stringify (.record ⟨0⟩) false).run noteInUse noted.2).1 =
        .ok (.string "\x7b\"text\":\"done\",\"draft\":\"to do\"\x7d") ∧
      ((Act.copy (.record ⟨0⟩) none).run noteInUse noted.2).1 = .ok (.record ⟨1⟩) ∧
      ((Act.stringify (.record ⟨1⟩) false).run noteInUse
        ((Act.copy (.record ⟨0⟩) none).run noteInUse noted.2).2).1 =
          .ok (.string "\x7b\"text\":\"done\"\x7d") := by
  refine ⟨noted_lives, ?_, ?_, ?_⟩
  all_goals decide +kernel

end Engine

end Overlay
