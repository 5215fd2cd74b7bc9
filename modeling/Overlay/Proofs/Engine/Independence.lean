import Mathlib.Data.List.OfFn
import Overlay.Proofs.Engine.Outcomes
import Overlay.Proofs.Engine.Readable
import Overlay.Proofs.Engine.Stored
import Overlay.Proofs.Plain.Naming

/-!
# Making a model of a record, field by field

While diagnostics are collected, making a model of a fresh record comes to the same as making one of
each of its entries: it has a result if they all do, reports what they report, and each field is
what it is if its entry is all there is.

* `Engine.Intake` : a fresh record that a model is made of, and what is at hand then;
* `Engine.create_fieldwise` : **fields are independent, and reports name them.**

A type of which no instance may be made refuses an empty record, too (`Engine.shape_refused`).
-/

namespace Overlay

namespace Engine

open Heap

variable {s : Schema} {t : TypeId} {strict : Bool} {es es' : Entries}

/-- A fresh record of these entries that a model of the type is to be made of while diagnostics are
collected, and what is at hand then. -/
structure Intake (s : Schema) (t : TypeId) (strict : Bool) (es : Entries) where
  /-- The types, and what is in use. -/
  context : Context
  /-- The state. -/
  state : State
  /-- The record. -/
  record : RecordId
  /-- It and what it consists of. -/
  cells : List Value
  /-- The diagnostics so far. -/
  before : List Diagnostic
  types : context.schema = s
  trees : state.heap.Trees [.record record] cells
  nodup : cells.Nodup
  held : ∀ v ∈ cells, state.heap.Holds v
  shows : state.heap.Shows (· ∈ cells) [.record record] [.record es]
  collecting : state.options.diagnostics = some before
  strictness : state.options.strict = strict
  apart : state.options.property = none

namespace Intake

variable (i : Intake s t strict es)

/-- A model is made of the record. -/
def run : Except Fault ModelId × State := create t (some (.record i.record)) i.context i.state

/-- There is a model. -/
def Succeeds : Prop := ∃ m, i.run.1 = .ok m

/-- There is a model, and its record has these fields. -/
def Gives (fields : Entries) : Prop :=
  ∃ m r, i.run.1 = .ok m ∧ Stands s t r m fields i.run.2.heap

/-- The diagnostics that are new. -/
def found : List Diagnostic := (i.run.2.options.diagnostics.getD []).drop i.before.length

/-- What the record comes to. -/
abbrev verdict (s : Schema) (t : TypeId) (strict : Bool) (es : Entries) : Verdict Tree :=
  Tree.constructed s strict none t (.record es)

theorem nodup_keys (i : Intake s t strict es) : es.keys.Nodup := by
  cases i.shows with
  | record _ keys _ _ => exact keys ▸ (i.state.heap.fields i.record).nodup

section Verdicts

variable (hs : s.Stratified) (free : s.Free (.model t)) (hstr : (s.type t).isStructured = true)

include hs free hstr

theorem ends : i.run.2.options.diagnostics =
      some (i.before ++ (verdict s t strict es).signalled.map .recorded) ∧
    match (verdict s t strict es).result with
    | .error e => i.run.1 = .error (.error e)
    | .ok y => ∃ fields, y = .record fields ∧ i.Gives fields := by
  have collects : i.state.options.collects = true := by
    unfold Options.collects
    rw [i.collecting]
    rfl
  have judged : JudgedFrom (create t (some (.record i.record))) i.context i.state i.cells
      (Tree.constructed s i.state.options.strict none t (.record es))
      fun m y h => (s.type t).isStructured = true → Standing s t m y h :=
    create_judgedFrom hs free i.types i.trees i.nodup i.held i.shows
  obtain ⟨noted, ends⟩ := judged.ends (create_orderly hs
    (Schema.index_lt_of_isStructured hstr) free.calm (some (.record i.record)))
    i.types i.apart collects
  rw [i.strictness] at noted ends
  refine ⟨?_, ?_⟩
  · unfold run
    rw [noted, Options.noting, i.collecting]
    rfl
  · cases hV : (verdict s t strict es).result with
    | error e =>
      rw [hV] at ends
      exact ends
    | ok y =>
      rw [hV] at ends
      obtain ⟨m, run, standing⟩ := ends
      obtain ⟨r, fields, e, stands⟩ := standing hstr
      exact ⟨fields, e, m, r, run, stands⟩

theorem diagnostics_eq : i.run.2.options.diagnostics = some (i.before ++ i.found) := by
  obtain ⟨noted, -⟩ := i.ends hs free hstr
  unfold found
  rw [noted, Option.getD_some, List.drop_left]

theorem found_eq : i.found = (verdict s t strict es).signalled.map .recorded := by
  obtain ⟨noted, -⟩ := i.ends hs free hstr
  unfold found
  rw [noted, Option.getD_some, List.drop_left]

theorem succeeds_iff : i.Succeeds ↔ ∃ y, (verdict s t strict es).result = .ok y := by
  obtain ⟨-, ends⟩ := i.ends hs free hstr
  cases hV : (verdict s t strict es).result with
  | error e =>
    rw [hV] at ends
    exact ⟨fun ⟨m, run⟩ => (nomatch ends.symm.trans run), fun ⟨y, e⟩ => (nomatch e)⟩
  | ok y =>
    rw [hV] at ends
    obtain ⟨fields, -, m, r, run, -⟩ := ends
    exact ⟨fun _ => ⟨y, rfl⟩, fun _ => ⟨m, run⟩⟩

theorem error_iff {fault : Fault} : i.run.1 = .error fault ↔
    ∃ e, fault = .error e ∧ (verdict s t strict es).result = .error e := by
  obtain ⟨-, ends⟩ := i.ends hs free hstr
  cases hV : (verdict s t strict es).result with
  | error e =>
    rw [hV] at ends
    refine ⟨fun run => ⟨e, Except.error.inj (run.symm.trans ends), rfl⟩, ?_⟩
    rintro ⟨e', rfl, same⟩
    cases same
    exact ends
  | ok y =>
    rw [hV] at ends
    obtain ⟨fields, -, m, r, run, -⟩ := ends
    refine ⟨fun failed => (nomatch run.symm.trans failed), ?_⟩
    rintro ⟨e, -, same⟩
    cases same

theorem gives_of_verdict {fields : Entries}
    (h : (verdict s t strict es).result = .ok (.record fields)) : i.Gives fields := by
  obtain ⟨-, ends⟩ := i.ends hs free hstr
  rw [h] at ends
  obtain ⟨fields', e, gives⟩ := ends
  cases e
  exact gives

end Verdicts

end Intake

/-! ### A record and its entries -/

section Entries

variable (hs : s.Stratified) (free : s.Free (.model t)) (hstr : (s.type t).isStructured = true)
  (allowed : (s.type t).allowsInstances = true)

include hs free hstr allowed

theorem Intake.alone {e : String × Tree} (i : Intake s t strict [e]) :
    i.found = (Tree.checked s strict t e).signalled.map .recorded ∧
      (i.Succeeds ↔ ∃ y, (Tree.checked s strict t e).result = .ok y) ∧
      (∀ y, (Tree.checked s strict t e).result = .ok y →
        i.Gives (Tree.laid (s.type t) [e] [y] [] [e])) ∧
      ∀ fault, i.run.1 = .error fault →
        ∃ err, fault = .error err ∧ (Tree.checked s strict t e).result = .error err := by
  have result : (verdict s t strict [e]).result = (Tree.checked s strict t e).result.map
      fun y => .record (Tree.laid (s.type t) [e] [y] [] [e]) := by
    rw [verdict, Tree.constructed_alone allowed hstr, Verdict.result_bind_pure]
  refine ⟨?_, ?_, fun y hy => ?_, fun fault failed => ?_⟩
  · rw [i.found_eq hs free hstr, verdict, Tree.constructed_alone allowed hstr,
      Verdict.signalled_bind_pure]
  · rw [i.succeeds_iff hs free hstr, result]
    cases (Tree.checked s strict t e).result with
    | error err => exact ⟨fun ⟨y, h⟩ => (nomatch h), fun ⟨y, h⟩ => (nomatch h)⟩
    | ok y => exact ⟨fun _ => ⟨y, rfl⟩, fun _ => ⟨_, rfl⟩⟩
  · exact i.gives_of_verdict hs free hstr (by rw [result, hy]; rfl)
  · obtain ⟨err, rfl, h⟩ := (i.error_iff hs free hstr).1 failed
    rw [result] at h
    cases hc : (Tree.checked s strict t e).result with
    | error err' =>
      rw [hc] at h
      exact ⟨err, rfl, congrArg Except.error (Except.error.inj h)⟩
    | ok y =>
      rw [hc] at h
      cases h

theorem Intake.succeeds_iff_checked (i : Intake s t strict es) :
    i.Succeeds ↔ ∀ e ∈ es, ∃ y, (Tree.checked s strict t e).result = .ok y := by
  rw [i.succeeds_iff hs free hstr, ← Verdict.mapM_ok_iff, verdict,
    Tree.constructed_eq_laid allowed hstr, Verdict.result_bind_pure]
  cases (es.mapM (Tree.checked s strict t)).result with
  | error err => exact ⟨fun ⟨y, h⟩ => (nomatch h), fun ⟨y, h⟩ => (nomatch h)⟩
  | ok ys => exact ⟨fun _ => ⟨ys, rfl⟩, fun _ => ⟨_, rfl⟩⟩

/-- If all entries have results, the record is that of their results, and reports what they
report. -/
theorem Intake.of_checked (i : Intake s t strict es)
    (ok : ∀ e ∈ es, ∃ y, (Tree.checked s strict t e).result = .ok y) :
    i.found = es.flatMap (fun e => (Tree.checked s strict t e).signalled.map .recorded) ∧
      ∃ ys, List.Forall₂ (fun e y => (Tree.checked s strict t e).result = .ok y) es ys ∧
        i.Gives (Tree.laid (s.type t) es ys [] es) := by
  obtain ⟨signalled, ys, hys, each⟩ := Verdict.mapM_of_ok ok
  refine ⟨?_, ys, each, i.gives_of_verdict hs free hstr ?_⟩
  · rw [i.found_eq hs free hstr, verdict, Tree.constructed_eq_laid allowed hstr,
      Verdict.signalled_bind_pure, signalled, List.map_flatMap]
  · rw [verdict, Tree.constructed_eq_laid allowed hstr, Verdict.result_bind_pure, hys]
    rfl

theorem Intake.of_stopped {before after : Entries} {e : String × Tree} {err : Error}
    (i : Intake s t strict es) (split : es = before ++ e :: after)
    (ok : ∀ e ∈ before, ∃ y, (Tree.checked s strict t e).result = .ok y)
    (stops : (Tree.checked s strict t e).result = .error err) :
    i.run.1 = .error (.error err) ∧
      i.found =
        (before ++ [e]).flatMap fun e => (Tree.checked s strict t e).signalled.map .recorded := by
  subst split
  have row : (before ++ e :: after).mapM (Tree.checked s strict t) = _ :=
    Verdict.mapM_of_error ok stops
  refine ⟨(i.error_iff hs free hstr).2 ⟨err, rfl, ?_⟩, ?_⟩
  · rw [verdict, Tree.constructed_eq_laid allowed hstr, Verdict.result_bind_pure, row]
    rfl
  · rw [i.found_eq hs free hstr, verdict, Tree.constructed_eq_laid allowed hstr,
      Verdict.signalled_bind_pure, row, List.flatMap_append, List.map_append, List.map_flatMap,
      List.flatMap_singleton]

theorem Intake.stops_at (whole : Intake s t strict es)
    (single : ∀ j : Fin es.length, Intake s t strict [es[j]]) {i : Fin es.length} {fault : Fault}
    (earlier : ∀ j < i, (single j).Succeeds) (stops : (single i).run.1 = .error fault) :
    whole.run.1 = .error fault ∧
      whole.found = ((List.ofFn fun j => (single j).found).take (i + 1)).flatten := by
  obtain ⟨err, rfl, stopped⟩ := ((single i).alone hs free hstr allowed).2.2.2 fault stops
  have split : es = es.take i ++ es[i] :: es.drop (i + 1) := by
    rw [Fin.getElem_fin, ← List.drop_eq_getElem_cons, List.take_append_drop]
  have ok : ∀ e ∈ es.take i, ∃ y, (Tree.checked s strict t e).result = .ok y := by
    intro e he
    obtain ⟨j, hj, rfl⟩ := List.mem_take_iff_getElem.1 he
    have hj := Nat.lt_min.1 hj
    exact ((single ⟨j, hj.2⟩).alone hs free hstr allowed).2.1.1 (earlier ⟨j, hj.2⟩ hj.1)
  obtain ⟨run, found⟩ := whole.of_stopped hs free hstr allowed split ok stopped
  refine ⟨run, ?_⟩
  rw [found, Fin.getElem_fin, ← List.take_succ_eq_append_getElem i.isLt, List.flatMap_def,
    List.map_take, ← List.ofFn_getElem_eq_map]
  simp only [((single _).alone hs free hstr allowed).1, Fin.getElem_fin]

end Entries

theorem Intake.barred (hs : s.Stratified) (free : s.Free (.model t))
    (hstr : (s.type t).isStructured = true) (barred : (s.type t).allowsInstances = false)
    (i : Intake s t strict es) :
    i.run.1 = .error (.error (.noInstances (s.type t).name)) ∧ i.found = [] := by
  have refused : verdict s t strict es = .raise (.noInstances (s.type t).name) := by
    unfold verdict Tree.constructed
    rw [barred]
    rfl
  refine ⟨(i.error_iff hs free hstr).2 ⟨_, rfl, ?_⟩, ?_⟩
  · rw [refused]
    rfl
  · rw [i.found_eq hs free hstr, refused]
    rfl

/-- What is reported of a record is a key that is not recognised, or a value in one of its entries,
under the name of the innermost property on the way to it. -/
theorem Intake.found_named (hs : s.Stratified) (free : s.Free (.model t))
    (hstr : (s.type t).isStructured = true) (i : Intake s t strict es) {d : Diagnostic}
    (h : d ∈ i.found) : ∃ err, d = .recorded err ∧ ((∃ key, err = .unrecognizedKey key) ∨
      ∃ key x p, (key, x) ∈ es ∧ (s.type t).through? key = some p ∧
        Tree.Named s strict p p.slot x err) := by
  rw [i.found_eq hs free hstr] at h
  obtain ⟨err, reported, rfl⟩ := List.mem_map.1 h
  refine ⟨err, rfl, ?_⟩
  cases allowed : (s.type t).allowsInstances with
  | false =>
    rw [verdict, Tree.constructed, allowed] at reported
    cases reported
  | true =>
    rw [verdict, Tree.constructed, allowed, hstr] at reported
    change err ∈ (Tree.admitted s strict t es [] es >>= fun fields =>
      pure (Tree.record fields)).signalled at reported
    rw [Verdict.signalled_bind_pure] at reported
    rcases Tree.mem_signalled_admitted reported with ⟨key, x, p, mem, through, inside⟩ | unrecognized
    · exact Or.inr ⟨key, x, p, mem, through, Tree.stored_named rfl inside⟩
    · exact Or.inl unrecognized

/-! ### Independence -/

/-- No two keys of the entries denote the same property. -/
def Distinct (t : ModelType) (es : Entries) : Prop :=
  es.Pairwise fun e e' => ∀ p, t.property? e.1 = some p → t.property? e'.1 ≠ some p

/-- Entries whose keys denote different properties are seen in different places. -/
theorem Distinct.apart (placed : (s.type t).PlacedAt t.index) (nodup : es.keys.Nodup)
    (keyed : (s.type t).WellKeyed) (distinct : Distinct (s.type t) es) :
    es.Pairwise fun e e' => ∀ k, (s.type t).Touches e.1 k → ¬ (s.type t).Touches e'.1 k := by
  have keys : es.Pairwise fun e e' => e.1 ≠ e'.1 := List.pairwise_map.1 nodup
  refine (keys.and distinct).imp fun parts k touches => ?_
  exact ModelType.Parts.not_touches parts keyed placed touches

theorem Distinct.perm {type : ModelType} (distinct : Distinct type es) (perm : es.Perm es') :
    Distinct type es' :=
  (perm.pairwise_iff fun parts p hp hq => parts p hq hp).1 distinct

/-- What is seen under a key of a record that was laid down: what became of the entry that goes
there, or nothing. -/
theorem laid_own (placed : (s.type t).PlacedAt t.index) (nodup : es.keys.Nodup)
    (keyed : (s.type t).WellKeyed) (distinct : Distinct (s.type t) es) (ys : List Tree)
    (k : String) :
    (∀ e y, (e, y) ∈ es.zip ys → (s.type t).Touches e.1 k →
      (Tree.laid (s.type t) es ys [] es).get k = (s.type t).left e y k) ∧
    ((∀ e ∈ es, ¬ (s.type t).Touches e.1 k) →
      (Tree.laid (s.type t) es ys [] es).get k = .leaf .undefined) := by
  refine ⟨fun e y mem touches => ?_, fun untouched => ?_⟩
  · refine Tree.laid_get (distinct.apart placed nodup keyed) (fun e he => ?_) mem touches
    exact ⟨List.mem_map.2 ⟨e, he, rfl⟩, Entries.get_of_mem nodup he, List.not_mem_nil⟩
  · rw [Tree.laid_get_of_not_touches untouched]
    refine Entries.get_of_not_mem fun mem => ?_
    obtain ⟨e, he, rfl⟩ := List.mem_map.1 mem
    exact untouched e he (Or.inl rfl)

theorem exists_mem_zip {α β : Type} {R : α → β → Prop} {xs : List α} {ys : List β}
    (each : List.Forall₂ R xs ys) {x : α} (hx : x ∈ xs) : ∃ y, (x, y) ∈ xs.zip ys ∧ R x y := by
  induction each with
  | nil => cases hx
  | cons first _ ih =>
    rcases List.mem_cons.1 hx with rfl | hx
    · exact ⟨_, List.mem_cons_self, first⟩
    · obtain ⟨y, mem, r⟩ := ih hx
      exact ⟨y, List.mem_cons_of_mem _ mem, r⟩

section Fieldwise

variable (hs : s.Stratified) (free : s.Free (.model t)) (keyed : (s.type t).WellKeyed)
  (hstr : (s.type t).isStructured = true) (allowed : (s.type t).allowsInstances = true)

include hs free keyed hstr allowed

theorem Intake.gives_own (i : Intake s t strict es) (distinct : Distinct (s.type t) es)
    (ok : ∀ e ∈ es, ∃ y, (Tree.checked s strict t e).result = .ok y) :
    ∃ fields, i.Gives fields ∧ ∀ k,
      (∀ e ∈ es, (s.type t).Touches e.1 k → ∃ y, (Tree.checked s strict t e).result = .ok y ∧
        fields.get k = (s.type t).left e y k) ∧
      ((∀ e ∈ es, ¬ (s.type t).Touches e.1 k) → fields.get k = .leaf .undefined) := by
  obtain ⟨-, ys, each, gives⟩ := i.of_checked hs free hstr allowed ok
  refine ⟨_, gives, fun k => ?_⟩
  obtain ⟨own, none⟩ := laid_own (hs.placedAt t) i.nodup_keys keyed distinct ys k
  refine ⟨fun e he touches => ?_, none⟩
  obtain ⟨y, mem, hy⟩ := exists_mem_zip each he
  exact ⟨y, hy, own e y mem touches⟩

/-- Two records of the same entries, in whichever order, come to the same. -/
theorem Intake.permuted (i : Intake s t strict es) (j : Intake s t strict es')
    (distinct : Distinct (s.type t) es) (perm : es.Perm es') :
    (i.Succeeds ↔ j.Succeeds) ∧ (i.Succeeds → i.found.Perm j.found ∧
      ∃ fields fields', i.Gives fields ∧ j.Gives fields' ∧ ∀ k, fields.get k = fields'.get k) := by
  have mem : ∀ {e}, e ∈ es' ↔ e ∈ es := perm.mem_iff.symm
  rw [i.succeeds_iff_checked hs free hstr allowed, j.succeeds_iff_checked hs free hstr allowed]
  refine ⟨by simp only [mem], fun ok => ?_⟩
  have ok' : ∀ e ∈ es', ∃ y, (Tree.checked s strict t e).result = .ok y := fun e he => ok e (mem.1 he)
  obtain ⟨fields, gives, seen⟩ := i.gives_own hs free keyed hstr allowed distinct ok
  obtain ⟨fields', gives', seen'⟩ := j.gives_own hs free keyed hstr allowed (distinct.perm perm) ok'
  refine ⟨?_, fields, fields', gives, gives', fun k => ?_⟩
  · rw [(i.of_checked hs free hstr allowed ok).1, (j.of_checked hs free hstr allowed ok').1]
    exact perm.flatMap_right _
  · by_cases touched : ∃ e ∈ es, (s.type t).Touches e.1 k
    · obtain ⟨e, he, touches⟩ := touched
      obtain ⟨y, hy, own⟩ := (seen k).1 e he touches
      obtain ⟨y', hy', own'⟩ := (seen' k).1 e (mem.2 he) touches
      cases hy.symm.trans hy'
      rw [own, own']
    · have untouched : ∀ e ∈ es, ¬ (s.type t).Touches e.1 k := fun e he touches =>
        touched ⟨e, he, touches⟩
      rw [(seen k).2 untouched, (seen' k).2 fun e he => untouched e (mem.1 he)]

/-- A record is what its entries are one by one: it has a result if they all have, and then reports
what they report, and each of its fields is what it is of the entry alone. -/
theorem Intake.of_each (whole : Intake s t strict es) (distinct : Distinct (s.type t) es)
    (single : ∀ j : Fin es.length, Intake s t strict [es[j]]) :
    (whole.Succeeds ↔ ∀ j, (single j).Succeeds) ∧
      (whole.Succeeds → whole.found = (List.ofFn fun j => (single j).found).flatten ∧
        ∃ fields, whole.Gives fields ∧
          (∀ j, ∃ own, (single j).Gives own ∧
            ∀ k, (s.type t).Touches es[j].1 k → fields.get k = own.get k) ∧
          ∀ k, (∀ e ∈ es, ¬ (s.type t).Touches e.1 k) → fields.get k = .leaf .undefined) := by
  have each : (∀ e ∈ es, ∃ y, (Tree.checked s strict t e).result = .ok y) ↔
      ∀ j, (single j).Succeeds := by
    simp only [((single _).alone hs free hstr allowed).2.1, List.forall_mem_iff_getElem,
      Fin.forall_iff]
    rfl
  refine ⟨(whole.succeeds_iff_checked hs free hstr allowed).trans each, fun succeeds => ?_⟩
  have ok := (whole.succeeds_iff_checked hs free hstr allowed).1 succeeds
  obtain ⟨fields, gives, seen⟩ := whole.gives_own hs free keyed hstr allowed distinct ok
  refine ⟨?_, fields, gives, fun j => ?_, fun k => (seen k).2⟩
  · rw [(whole.of_checked hs free hstr allowed ok).1, List.flatMap_def, ← List.ofFn_getElem_eq_map]
    simp only [((single _).alone hs free hstr allowed).1, Fin.getElem_fin]
  · -- of the one entry, too, there is under a key what became of it
    have alone : ∀ e ∈ [es[j]], ∃ y, (Tree.checked s strict t e).result = .ok y := fun e he =>
      ok e (List.mem_singleton.1 he ▸ List.getElem_mem j.isLt)
    obtain ⟨own, gives', seen'⟩ := (single j).gives_own hs free keyed hstr allowed
      (List.pairwise_singleton ..) alone
    refine ⟨own, gives', fun k touches => ?_⟩
    obtain ⟨y, hy, under⟩ := (seen k).1 _ (List.getElem_mem j.isLt) touches
    obtain ⟨y', hy', under'⟩ := (seen' k).1 _ List.mem_cons_self touches
    cases hy.symm.trans hy'
    exact under.trans under'.symm

end Fieldwise

/-- **Fields are independent, and reports name them.**  Let a type with properties be free of hooks,
whose storage keys belong to one property each, and let no two keys of a record denote the same
property.  Making a model of it while diagnostics are collected adds to those there are, and comes
to the same as making one of each entry:

* there is a model if there is one of each entry;
* then the diagnostics are those of the entries, in order, and what is seen under a key that an
  entry goes to is what is seen there of that entry alone;
* the first entry of which there is none is where the record fails, in the same way, once the
  entries before it have been reported on;
* for the same entries in another order, the diagnostics are in another order, and the fields are
  the same;
* a value that is reported as invalid stands somewhere in an entry, does not fit what is declared
  for it, and is reported under the name of the innermost property on the way to it. -/
theorem create_fieldwise (hs : s.Stratified) (free : s.Free (.model t))
    (keyed : (s.type t).WellKeyed) (hstr : (s.type t).isStructured = true)
    (distinct : Distinct (s.type t) es) (able : (s.type t).allowsInstances = true ∨ es ≠ [])
    (whole : Intake s t strict es) (single : ∀ j : Fin es.length, Intake s t strict [es[j]]) :
    whole.run.2.options.diagnostics = some (whole.before ++ whole.found) ∧
      (whole.Succeeds ↔ ∀ j, (single j).Succeeds) ∧
      (whole.Succeeds → whole.found = (List.ofFn fun j => (single j).found).flatten ∧
        ∃ fields, whole.Gives fields ∧
          (∀ j, ∃ own, (single j).Gives own ∧
            ∀ k, (s.type t).Touches es[j].1 k → fields.get k = own.get k) ∧
          ∀ k, (∀ e ∈ es, ¬ (s.type t).Touches e.1 k) → fields.get k = .leaf .undefined) ∧
      (∀ i fault, (∀ j < i, (single j).Succeeds) → (single i).run.1 = .error fault →
        whole.run.1 = .error fault ∧
          whole.found = ((List.ofFn fun j => (single j).found).take (i + 1)).flatten) ∧
      (∀ es' (other : Intake s t strict es'), es.Perm es' → (whole.Succeeds ↔ other.Succeeds) ∧
        (whole.Succeeds → whole.found.Perm other.found ∧
          ∃ fields fields', whole.Gives fields ∧ other.Gives fields' ∧
            ∀ k, fields.get k = fields'.get k)) ∧
      ∀ d ∈ whole.found, ∃ err, d = .recorded err ∧ ((∃ key, err = .unrecognizedKey key) ∨
        ∃ key x p, (key, x) ∈ es ∧ (s.type t).through? key = some p ∧
          Tree.Named s strict p p.slot x err) := by
  have noted := whole.diagnostics_eq hs free hstr
  have named := fun d => whole.found_named hs free hstr (d := d)
  cases allowed : (s.type t).allowsInstances with
  | true =>
    obtain ⟨succeeds, fields⟩ := whole.of_each hs free keyed hstr allowed distinct single
    exact ⟨noted, succeeds, fields,
      fun i fault => whole.stops_at hs free hstr allowed single,
      fun es' other => whole.permuted hs free keyed hstr allowed other distinct, named⟩
  | false =>
    -- there is no model, neither of the record nor of its first entry
    have refused : ∀ {es'} (i : Intake s t strict es'), ¬ i.Succeeds := fun i ⟨m, made⟩ =>
      nomatch (i.barred hs free hstr allowed).1.symm.trans made
    have entry : 0 < es.length := List.length_pos_iff.2 (able.resolve_left (by simp [allowed]))
    refine ⟨noted, ⟨fun h => absurd h (refused whole), fun h => absurd (h ⟨0, entry⟩) (refused _)⟩,
      fun h => absurd h (refused whole), fun i fault earlier stops => ?_,
      fun es' other _ => ⟨⟨fun h => absurd h (refused whole), fun h => absurd h (refused other)⟩,
        fun h => absurd h (refused whole)⟩, named⟩
    obtain ⟨fails, nothing⟩ := (single i).barred hs free hstr allowed
    obtain ⟨fails', nothing'⟩ := whole.barred hs free hstr allowed
    refine ⟨fails'.trans (fails.symm.trans stops), ?_⟩
    rw [nothing', eq_comm, List.flatten_eq_nil_iff]
    intro found mem
    obtain ⟨j, rfl⟩ := (List.mem_ofFn' _ _).1 (List.mem_of_mem_take mem)
    exact ((single j).barred hs free hstr allowed).2

/-- Two records of numbers that are none, and a record that they are put into. -/
def letters (es : List (String × Value)) : Heap :=
  ⟨#[⟨.ofList [("n", .string "x")], none⟩, ⟨.ofList [("n", .string "y")], none⟩,
    ⟨.ofList es, none⟩], #[], #[]⟩

/-- What the records look like in a box. -/
def letterEntries : Entries :=
  [("spare", .record [("n", .leaf (.string "x"))]), ("item", .record [("n", .leaf (.string "y"))])]

theorem letters_first (es : List (String × Value)) :
    (letters es).Trees ((letters es).fields ⟨0⟩).values [] := .scalar rfl .nil

theorem letters_second (es : List (String × Value)) :
    (letters es).Trees ((letters es).fields ⟨1⟩).values [] := .scalar rfl .nil

/-- A box is to be made of the record that they are put into. -/
def boxed (es : List (String × Value)) {cells : List Value} {entries : Entries}
    (inside : (letters es).Trees ((letters es).fields ⟨2⟩).values cells)
    (nodup : (.record ⟨2⟩ :: cells).Nodup) (held : ∀ v ∈ .record ⟨2⟩ :: cells, (letters es).Holds v)
    (shows : (letters es).Shows (· ∈ .record ⟨2⟩ :: cells) [.record ⟨2⟩] [.record entries]) :
    Intake Run.boxSchema ⟨2⟩ false entries where
  context := ⟨Run.boxSchema, []⟩
  state := ⟨letters es, ⟨some [], false, none⟩, []⟩
  record := ⟨2⟩
  cells := .record ⟨2⟩ :: cells
  before := []
  types := rfl
  trees := List.append_nil cells ▸ .record rfl inside .nil
  nodup := nodup
  held := held
  shows := shows
  collecting := rfl
  strictness := rfl
  apart := rfl

/-- The record of both. -/
def bothLetters : Intake Run.boxSchema ⟨2⟩ false letterEntries :=
  boxed [("spare", .record ⟨0⟩), ("item", .record ⟨1⟩)]
    (.record rfl (letters_first _) (.record rfl (letters_second _) .nil))
    (by decide) (by decide +kernel)
    (.record (by decide) rfl (.record (by decide) rfl (.leaf rfl .nil)
      (.record (by decide) rfl (.leaf rfl .nil) .nil)) .nil)

/-- The record of either one. -/
def oneLetter : (j : Fin letterEntries.length) →
    Intake Run.boxSchema ⟨2⟩ false [letterEntries[j]]
  | ⟨0, _⟩ => boxed [("spare", .record ⟨0⟩)]
    (.record rfl (letters_first _) .nil) (by decide) (by decide +kernel)
    (.record (by decide) rfl (.record (by decide) rfl (.leaf rfl .nil) .nil) .nil)
  | ⟨1, _⟩ => boxed [("item", .record ⟨1⟩)]
    (.record rfl (letters_second _) .nil) (by decide) (by decide +kernel)
    (.record (by decide) rfl (.record (by decide) rfl (.leaf rfl .nil) .nil) .nil)

/-- A box of two items whose numbers are none is made all the same; what is reported of either item
is reported of the box, in order, and the spare one is where it is in a box of its own. -/
theorem create_fieldwise_letters :
    bothLetters.Succeeds ∧
      bothLetters.found = [.recorded (.invalidValue (some "n") "x"),
        .recorded (.invalidValue (some "n") "y")] ∧
      ∃ fields own, bothLetters.Gives fields ∧ (oneLetter ⟨0, by decide⟩).Gives own ∧
        fields.get "$spare" = own.get "$spare" := by
  have spare : (Run.boxSchema.type ⟨2⟩).through? "spare" =
      some ⟨"spare", "$spare", .model ⟨1⟩, [], none, none, true⟩ := by decide +kernel
  have distinct : Distinct (Run.boxSchema.type ⟨2⟩) letterEntries := by
    have other : (Run.boxSchema.type ⟨2⟩).property? "item" = some Run.boxedItem := by decide +kernel
    refine List.pairwise_pair.2 fun p hp hq => ?_
    cases other.symm.trans hq
    exact absurd hp (by decide +kernel)
  obtain ⟨-, succeeds, whole, -⟩ := create_fieldwise
    Run.boxSchema_regular.built.stratified (Run.boxSchema_regular.modelFree ⟨2⟩)
    (Run.boxSchema_regular.keyed ⟨2⟩) (by decide +kernel) distinct
    (Or.inr (by decide)) bothLetters oneLetter
  have first : (oneLetter ⟨0, by decide⟩).Succeeds := ⟨⟨0⟩, by decide +kernel⟩
  have second : (oneLetter ⟨1, by decide⟩).Succeeds := ⟨⟨0⟩, by decide +kernel⟩
  have made : bothLetters.Succeeds := succeeds.2 fun
    | ⟨0, _⟩ => first
    | ⟨1, _⟩ => second
  obtain ⟨found, fields, gives, each, -⟩ := whole made
  obtain ⟨own, alone, same⟩ := each ⟨0, by decide⟩
  refine ⟨made, found.trans (by decide +kernel), fields, own, gives, alone, same _ ?_⟩
  exact Or.inr ⟨_, spare, rfl⟩

/-- A record without entries. -/
def blank : Heap :=
  ⟨#[⟨.empty, none⟩], #[], #[]⟩

/-- A shape is to be made of it. -/
def emptyShape : Intake frameSchema ⟨1⟩ false [] where
  context := ⟨frameSchema, []⟩
  state := ⟨blank, ⟨some [], false, none⟩, []⟩
  record := ⟨0⟩
  cells := [.record ⟨0⟩]
  before := []
  types := rfl
  trees := by
    have inside : blank.Trees (blank.fields ⟨0⟩).values [] := .nil
    exact .record rfl inside .nil
  nodup := by decide
  held := by decide +kernel
  shows := .record (by decide) rfl .nil .nil
  collecting := rfl
  strictness := rfl
  apart := rfl

/-- None of the entries of an empty record is refused, for there are none, but of a type of which no
instance may be made, none is made of it. -/
theorem shape_refused :
    frameSchema.Stratified ∧ frameSchema.Free (.model ⟨1⟩) ∧ (frameSchema.type ⟨1⟩).WellKeyed ∧
      (frameSchema.type ⟨1⟩).isStructured = true ∧ Distinct (frameSchema.type ⟨1⟩) [] ∧
      emptyShape.run.1 = .error (.error (.noInstances "Shape")) ∧
      ¬ (emptyShape.Succeeds ↔ ∀ (j : Fin ([] : Entries).length)
        (one : Intake frameSchema ⟨1⟩ false [([] : Entries)[j]]), one.Succeeds) := by
  have refused : emptyShape.run.1 = .error (.error (.noInstances "Shape")) := by decide +kernel
  refine ⟨frameSchema_built.stratified, frameSchema_built.free frameSchema_ruleFree _,
    ModelType.wellKeyed_of_listed (by decide +kernel),
    by decide +kernel, .nil, refused, fun iff => ?_⟩
  obtain ⟨m, made⟩ := iff.2 fun j => j.elim0
  cases refused.symm.trans made

end Engine

end Overlay
