import Overlay.Proofs.Interchange.Loading
import Overlay.Proofs.Interchange.Portable
import Overlay.Proofs.Snapshot.RoundTrip

/-!
# Snapshots can be read back from JSON

A snapshot of a model goes to JSON and is loaded again, in another heap if need be.  Where it is
declared what is stored, and all dates can be written, a model is made of what was loaded, and its
snapshot is equal to the first, with dates cut to whole milliseconds.

* `Engine.create_load_create` : **snapshots can be read back from JSON;**
* `Engine.late_not_reread` : the year of a date may have too many digits for that.
-/

namespace Overlay.Engine

open Heap Interchange Snapshot

variable {s : Schema} {c c' : Context} {st st' st₁ : State} {t : TypeId} {m : ModelId} {x : Tree}

/-- **Snapshots can be read back from JSON.**  Let every property say what it stores, and let a
model of a type with properties have been made of a fresh plain tree in throwing mode, with finite
numbers and no undefined element.  If all dates in its snapshot can be written, a model is made of
what is loaded from the JSON of the snapshot, in any heap, and the snapshot of that model is equal
to the first one with dates cut to whole milliseconds; whatever is held when snapshots are taken. -/
theorem create_load_create (P : s.Portable) (hc : c.schema = s)
    (hstr : (s.type t).isStructured = true) (hp : st.options.property = none)
    (throwing : st.options.diagnostics = none) {data : Option Value}
    (run : create t data c st = (.ok m, st')) {cells : List Value}
    (trees : st.heap.Trees [data.getD .undefined] cells) (nodup : cells.Nodup)
    (held : ∀ v ∈ cells, st.heap.Holds v)
    (sh : st.heap.Shows (· ∈ cells) [data.getD .undefined] [x])
    (full : ∀ e ∈ x.entries, .undefined ∉ e.2.leaves)
    (finite : ∀ e ∈ x.entries, ∀ v ∈ e.2.leaves, v.isFinite = true)
    {roots : List Value} {ds : Option (List Diagnostic)} {v : Value} {sn : Snapshot.State}
    (snap : take s roots st'.heap ds (.model m) = (v, sn)) :
    ∃ y, sn.heap.Shows sn.heap.Holds [v] [y] ∧
      ((∀ d, .date d ∈ y.leaves → d.IsWritable) →
        ∀ {c' : Context} {st₁ : State} {h : Heap} {w : Value} {roots' : List Value},
          c'.schema = s → st₁.options.property = none → st₁.options.strict = false →
          load (treeOf s roots' sn.heap v) h = (w, st₁.heap) →
          ∃ m' st₁', create t (some w) c' st₁ = (.ok m', st₁') ∧
            ∀ roots₁ ds₁ v' sn', take s roots₁ st₁'.heap ds₁ (.model m') = (v', sn') →
              sn'.heap.Matches v' y.floored) := by
  have free := P.regular.modelFree t
  have keyed := P.regular.modelKeyed t
  obtain ⟨z, -, quiet, -, standing⟩ := create_standing P.built.stratified free hc hp hstr trees nodup
    held sh run
  have proper := (sh.proper x List.mem_cons_self).entries
  obtain ⟨allowed, fields, rfl, admitted⟩ := Tree.constructed_pure hstr (quiet throwing)
  obtain ⟨r, fields', e, stands⟩ := standing
  cases e
  obtain ⟨r₁, T₁, first, rebuilt⟩ := stands.rebuilt keyed hstr roots ds
  rw [snap] at first rebuilt
  subst first
  have shown := rebuilt.shows_held fun u hu => hu.1.1
  refine ⟨_, shown, fun dates => ?_⟩
  intro c' st₁ h w roots' hc' hp' lenient loading
  -- every field of the snapshot suits its property, and is stored again
  obtain - | - | @⟨_, tidy, inner⟩ := proper
  have suits := Tree.suits_of_admitted P hstr tidy admitted fun e he p y hp' stored =>
    Tree.suits_of_stored P (P.declared hp') (inner e he) (finite e he) (full e he) stored
  have tidy' := Tree.tidy_cleanedEntries (s := s) (t := t)
    (Tree.admitted_keys admitted tidy.defined_mem tidy).1
  obtain ⟨es', out, reread, -, admitted', there, back⟩ := Tree.reread_fields P tidy'
    (fun e he => let ⟨p, hp, _⟩ := suits e he; ⟨p, hp⟩) fun e he p hp => by
      obtain ⟨p', hp', suit⟩ := suits e he
      cases hp.symm.trans hp'
      exact suit.reread P fun d hd => dates d (Tree.mem_leaves_record he hd)
  obtain ⟨cells', loaded⟩ := load_treeOf shown (fun _ => id) s roots' h
  rw [loading, reread] at loaded
  -- what was loaded is a fresh plain tree that shows those fields
  have made : ∃ m' st₁', create t (some w) c' st₁ = (.ok m', st₁') ∧
      Standing s t m' (.record out) st₁'.heap :=
    create_made P.built.stratified free hc' hp' hstr loaded.trees loaded.nodup
      (fun u hu => (loaded.fresh u hu).1) loaded.shows
      (lenient ▸ Tree.constructed_record hstr allowed admitted' none)
  obtain ⟨m', st₁', run', standing'⟩ := made
  obtain ⟨r', fields', e, stands'⟩ := standing'
  cases e
  refine ⟨m', st₁', run', fun roots₁ ds₁ v' sn' snap' => ?_⟩
  obtain ⟨r₂, T₂, second, rebuilt'⟩ := stands'.rebuilt keyed hstr roots₁ ds₁
  rw [snap'] at second rebuilt'
  subst second
  exact ⟨_, rebuilt'.shows_held fun u hu => hu.1.1, there, back⟩

/-! ### A diary -/

/-- What declares a visit with its date. -/
def visitExtension : Extension :=
  { Extension.empty with name := some "Visit", properties := [("at", .marker .date)] }

/-- What declares a diary with a list of visits. -/
def diaryExtension : Extension :=
  { Extension.empty with
    name := some "Diary", properties := [("visits", .array [.type (.model ⟨1⟩)])] }

/-- The root, visits and diaries. -/
def diarySchema : Schema :=
  let s := (Schema.initial.addModel (.extended .root .root visitExtension
    [⟨"at", "at", .builtin .date, [], none, none, true⟩])).2
  (s.addModel (.extended .root .root diaryExtension
    [⟨"visits", "visits", .builtin .array, [.model ⟨1⟩], none, none, true⟩])).2

theorem diarySchema_portable : diarySchema.Portable := by
  have built : diarySchema.Built :=
    (Schema.Built.initial.extend .root visitExtension (by decide) ⟨rfl, nofun, rfl, rfl⟩ rfl
      (by decide)).extend .root diaryExtension (by decide) ⟨rfl, nofun, rfl, rfl⟩ rfl (by decide)
  exact built.portable (by decide +kernel)

/-- A diary with one visit. -/
def diaryData (v : Value) : Heap :=
  ⟨#[⟨.ofList [("visits", .array ⟨0⟩)], none⟩, ⟨.ofList [("at", v)], none⟩], #[[.record ⟨1⟩]], #[]⟩

theorem diaryData_trees {v : Value} (hv : v.isScalar = true)
    (date : ((diaryData v).fields ⟨1⟩).values = [v]) :
    (diaryData v).Trees [.record ⟨0⟩] [.record ⟨0⟩, .array ⟨0⟩, .record ⟨1⟩] := by
  have visit : (diaryData v).Trees ((diaryData v).fields ⟨1⟩).values [] := by
    rw [date]
    exact .scalar hv .nil
  have visits : (diaryData v).Trees ((diaryData v).items ⟨0⟩) [.record ⟨1⟩] :=
    .record rfl visit .nil
  have diary : (diaryData v).Trees ((diaryData v).fields ⟨0⟩).values [.array ⟨0⟩, .record ⟨1⟩] :=
    .array visits .nil
  exact .record rfl diary .nil

/-- Such a diary as a tree. -/
def diaryTree (v : Value) : Tree := .record [("visits", .array [.record [("at", .leaf v)]])]

theorem diaryTree_floored (d : Instant) :
    (diaryTree (.date d)).floored = diaryTree (.date d.floorMillis) := rfl

/-- Makes a diary of the record. -/
def makeDiary (v : Value) : Except Fault ModelId × State :=
  create ⟨2⟩ (some (.record ⟨0⟩)) ⟨diarySchema, []⟩ ⟨diaryData v, .throwing, []⟩

/-- The snapshot of the diary. -/
def diarySnapshot (v : Value) : Value × Snapshot.State :=
  take diarySchema [.model ⟨0⟩] (makeDiary v).2.heap none (.model ⟨0⟩)

/-- What is loaded from the JSON of the snapshot. -/
def diaryLoaded (v : Value) : Value × Heap :=
  load (treeOf diarySchema [] (diarySnapshot v).2.heap (.record ⟨3⟩)) .empty

/-- New Year 2020, and so many nanoseconds. -/
def newYear (nanos : Nat) (h : nanos < 2000000000) : Instant :=
  ⟨1577836800, nanos, by decide, by decide, h⟩

/-- New Year as a text, with a fraction of a millisecond. -/
def newYearText : Value := .string "2020-01-01T00:00:00.1239Z"

theorem newYearData_shows :
    (diaryData newYearText).Shows (· ∈ [.record ⟨0⟩, .array ⟨0⟩, .record ⟨1⟩]) [.record ⟨0⟩]
      [diaryTree newYearText] := by
  refine .record (by decide) rfl ?_ .nil
  refine .array (by decide) ?_ .nil
  refine .record (by decide) rfl ?_ .nil
  exact .leaf rfl .nil

theorem newYearSnapshot_shows :
    (diarySnapshot newYearText).2.heap.Shows (diarySnapshot newYearText).2.heap.Holds
      [.record ⟨3⟩] [diaryTree (.date (newYear 123900000 (by decide)))] := by
  have visit : (diarySnapshot newYearText).2.heap.fields ⟨2⟩ =
      .ofList [("at", .date (newYear 123900000 (by decide)))] := by decide +kernel
  have items : (diarySnapshot newYearText).2.heap.items ⟨1⟩ = [.record ⟨2⟩] := by decide +kernel
  have diary : (diarySnapshot newYearText).2.heap.fields ⟨3⟩ =
      .ofList [("visits", .array ⟨1⟩)] := by decide +kernel
  refine .record (by decide +kernel) (by rw [diary]; rfl) ?_ .nil
  rw [diary]
  refine .array (by decide +kernel) ?_ .nil
  rw [items]
  refine .record (by decide +kernel) (by rw [visit]; rfl) ?_ .nil
  rw [visit]
  exact .leaf rfl .nil

/-- A diary is made of the JSON of a snapshot, and its date has lost less than a millisecond. -/
theorem create_load_create_diary :
    (makeDiary newYearText).1 = .ok ⟨0⟩ ∧ (diarySnapshot newYearText).1 = .record ⟨3⟩ ∧
      ∃ m st, create ⟨2⟩ (some (diaryLoaded newYearText).1) ⟨diarySchema, []⟩
          ⟨(diaryLoaded newYearText).2, .throwing, []⟩ = (.ok m, st) ∧
        ∀ roots ds v sn, take diarySchema roots st.heap ds (.model m) = (v, sn) →
          sn.heap.Matches v (diaryTree (.date (newYear 123000000 (by decide)))) := by
  have made : (makeDiary newYearText).1 = .ok ⟨0⟩ := by decide +kernel
  have run : makeDiary newYearText = (.ok ⟨0⟩, (makeDiary newYearText).2) := by rw [← made]
  have shown : (diarySnapshot newYearText).1 = .record ⟨3⟩ := by decide +kernel
  have snap : diarySnapshot newYearText = (.record ⟨3⟩, (diarySnapshot newYearText).2) := by
    rw [← shown]
  refine ⟨made, shown, ?_⟩
  obtain ⟨y, shows, again⟩ := @create_load_create diarySchema ⟨diarySchema, []⟩
    ⟨diaryData newYearText, .throwing, []⟩ _ ⟨2⟩ ⟨0⟩ _ diarySchema_portable rfl
    (by decide +kernel) rfl rfl _ run _ (diaryData_trees rfl rfl) (by decide)
    (by simp [Heap.Holds, diaryData]) newYearData_shows (by decide) (by decide) [.model ⟨0⟩] none
    _ _ snap
  cases shows.unique newYearSnapshot_shows
  have writable : (newYear 123900000 (by decide)).IsWritable := by decide +kernel
  have dates : ∀ d, .date d ∈ (diaryTree (.date (newYear 123900000 (by decide)))).leaves →
      d.IsWritable := fun d hd => by
    cases List.mem_singleton.1 hd
    exact writable
  have floored : (diaryTree (.date (newYear 123900000 (by decide)))).floored =
      diaryTree (.date (newYear 123000000 (by decide))) := by
    rw [diaryTree_floored]
    exact congrArg _ (congrArg _ (by decide +kernel))
  rw [floored] at again
  obtain ⟨w, h, loading⟩ : ∃ w h, diaryLoaded newYearText = (w, h) := ⟨_, _, (Prod.eta _).symm⟩
  rw [loading]
  exact @again dates ⟨diarySchema, []⟩ ⟨h, .throwing, []⟩ .empty w [] rfl rfl rfl loading

example : (makeDiary (.string "now")).1 = .error (.error (.invalidValue (some "at") "now")) := by
  decide +kernel

/-- The first millisecond of the year 10000. -/
def lateNumber : Value := .number (.ofInt 253402300800000)

/-- A diary is made of a date in the year 10000, but none is made of the JSON of its snapshot: the
year has five digits there. -/
theorem late_not_reread :
    diarySchema.Portable ∧
      (diaryData lateNumber).Trees [.record ⟨0⟩] [.record ⟨0⟩, .array ⟨0⟩, .record ⟨1⟩] ∧
      (makeDiary lateNumber).1 = .ok ⟨0⟩ ∧ (diarySnapshot lateNumber).1 = .record ⟨3⟩ ∧
      (create ⟨2⟩ (some (diaryLoaded lateNumber).1) ⟨diarySchema, []⟩
          ⟨(diaryLoaded lateNumber).2, .throwing, []⟩).1 =
        .error (.error (.invalidValue (some "at") "+10000-01-01T00:00:00.000Z")) :=
  ⟨diarySchema_portable, diaryData_trees rfl rfl, by decide +kernel, by decide +kernel,
    by decide +kernel⟩

end Overlay.Engine
