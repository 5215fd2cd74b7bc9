import Overlay.Proofs.Engine.Outcomes
import Overlay.Proofs.Plain.Noting
import Overlay.Proofs.Snapshot.Copying

/-!
# What snapshots note

The snapshot of what is known by its slot notes the keys of its tree that are not recognised, in
order, whatever is held.  So right after a model was made of plain data, its snapshot notes just the
keys that were reported in making it.

* `Snapshot.within_noted`, `Snapshot.take_noted` : what a snapshot notes;
* `Engine.create_take_noted` : **construction and cleaning agree on what is not recognised.**
-/

namespace Overlay

namespace Snapshot

open Heap

/-- The diagnostics with errors noted, if they are asked for. -/
def noting (ds : Option (List Diagnostic)) (es : List Error) : Option (List Diagnostic) :=
  ds.map (· ++ es.map .recorded)

@[simp] theorem noting_nil (ds : Option (List Diagnostic)) : noting ds [] = ds := by
  cases ds <;> simp [noting]

theorem noting_noting (ds : Option (List Diagnostic)) (es es' : List Error) :
    noting (noting ds es) es' = noting ds (es ++ es') := by
  cases ds <;> simp [noting]

variable {s : Schema} {h : Heap} {P : Value → Prop} {c : Context} {st : State} {q : Option Slot}
  {vs : List Value} {xs : List Tree} {t : TypeId}

theorem each_noted (copy : Value → Action Value) (extending : ∀ v, Extending (copy v))
    (sh : h.Shows P vs xs) (hcopy : ∀ v ∈ vs, ∀ x ∈ xs, h.Shows P [v] [x] →
      ∀ st : State, h.Extends st.heap →
        (copy v c st).2.diagnostics = noting st.diagnostics (x.noted s q))
    (ext : h.Extends st.heap) :
    (each copy vs c st).2.diagnostics = noting st.diagnostics (Tree.notedItems s q xs) := by
  induction vs generalizing xs st with
  | nil =>
    cases sh
    exact (noting_nil _).symm
  | cons v vs ih =>
    obtain - | ⟨x, xs⟩ := xs
    · cases sh
    · obtain ⟨first, others⟩ := sh.split
      have noted := hcopy v List.mem_cons_self x List.mem_cons_self first st ext
      have rest := ih others (fun v hv x hx =>
        hcopy v (List.mem_cons_of_mem _ hv) x (List.mem_cons_of_mem _ hx))
        (ext.trans (extending v c st))
      rw [Tree.notedItems, ← noting_noting, ← noted]
      exact rest

theorem entriesOf_noted {copy : Property → Value → Action Value}
    (extending : ∀ p v, Extending (copy p v)) {fs : List (String × Value)} {es : Entries}
    (keys : fs.map Prod.fst = es.keys) (sh : h.Shows P (fs.map Prod.snd) (es.map Prod.snd))
    (hcopy : ∀ e ∈ fs, ∀ p, isReserved e.1 = false → (s.type t).property? e.1 = some p →
      ∀ x ∈ es.map Prod.snd, h.Shows P [e.2] [x] → ∀ st : State, h.Extends st.heap →
        (copy p e.2 c st).2.diagnostics = noting st.diagnostics (x.noted s (some p.slot)))
    (ext : h.Extends st.heap) :
    (entriesOf copy (s.type t) fs c st).2.diagnostics =
      noting st.diagnostics (Tree.notedEntries s t es) := by
  induction fs generalizing es st with
  | nil =>
    obtain rfl : es = [] := List.map_eq_nil_iff.1 keys.symm
    rw [Tree.notedEntries, noting_nil]
    rfl
  | cons f fs ih =>
    obtain ⟨key, v⟩ := f
    obtain - | ⟨⟨key', x⟩, es⟩ := es
    · cases keys
    · obtain ⟨rfl, keys'⟩ : key = key' ∧ fs.map Prod.fst = Entries.keys es := List.cons.inj keys
      obtain ⟨first, others⟩ := sh.split
      have rest : ∀ st : State, h.Extends st.heap →
          (entriesOf copy (s.type t) fs c st).2.diagnostics =
            noting st.diagnostics (Tree.notedEntries s t es) := fun _ =>
        ih keys' others fun e he p hr hp x hx => hcopy e (List.mem_cons_of_mem _ he) p hr hp x
          (List.mem_cons_of_mem _ hx)
      rw [Tree.notedEntries]
      unfold entriesOf
      cases hr : isReserved key with
      | true => exact rest st ext
      | false =>
        rw [if_neg Bool.false_ne_true, if_neg Bool.false_ne_true]
        cases hp : (s.type t).property? key with
        | some p =>
          cases persisted : p.isPersisted with
          | false =>
            dsimp only
            rw [persisted, if_neg Bool.false_ne_true, if_neg Bool.false_ne_true]
            exact rest st ext
          | true =>
            have noted := hcopy _ List.mem_cons_self p hr hp x List.mem_cons_self first st ext
            dsimp only
            rw [persisted, if_pos rfl, if_pos rfl, ← noting_noting, ← noted]
            exact rest _ (ext.trans (extending p v c st))
        | none =>
          cases additional : (s.type t).allowsAdditional with
          | false =>
            dsimp only
            rw [if_neg Bool.false_ne_true, if_neg Bool.false_ne_true, ← List.singleton_append,
              ← noting_noting]
            exact rest (noteKey key c st).2 ext
          | true =>
            dsimp only
            rw [if_pos rfl, if_pos rfl]
            exact rest st ext

theorem dataOf_noted (copy : Property → Value → Action Value)
    (extending : ∀ p v, Extending (copy p v)) {r : RecordId} {es : Entries} (hc : c.schema = s)
    (hstr : (s.type t).isStructured = true) (held : h.Holds (.record r))
    (keys : (h.fields r).keys = es.keys)
    (sh : h.Shows P (h.fields r).values (es.map Prod.snd))
    (known : ∀ key, isReserved key = false →
      Known s h ((s.type t).slot? key) ((h.fields r).get key))
    (hcopy : ∀ v x p, x ∈ es.map Prod.snd → h.Shows P [v] [x] → Known s h (some p.slot) v →
      ∀ st : State, h.Extends st.heap →
        (copy p v c st).2.diagnostics = noting st.diagnostics (x.noted s (some p.slot)))
    (ext : h.Extends st.heap) :
    (dataOf copy t (.record r) c st).2.diagnostics =
      noting st.diagnostics (Tree.notedEntries s t es) := by
  have fields : st.heap.fields r = h.fields r := (ext.changesOnly []).fields r held List.not_mem_nil
  rw [dataOf_record, hc, hstr, if_pos rfl, fields]
  refine entriesOf_noted extending keys sh (fun e he p hr hp x hx shown => ?_) ext
  have slot := Fields.get_of_mem he ▸ known e.1 hr
  rw [ModelType.slot?_of_data hr, hp] at slot
  exact hcopy e.2 x p hx shown slot

/-- What is noted of what is known by its slot. -/
theorem within_noted (hc : c.schema = s) (hP : ∀ u, P u → h.Holds u) (depth : Nat)
    (p : Option Property) {v : Value} {x : Tree} (le : x.depth ≤ depth) (sh : h.Shows P [v] [x])
    (known : Known s h (p.map Property.slot) v) (ext : h.Extends st.heap) :
    (within depth p v c st).2.diagnostics =
      noting st.diagnostics (x.noted s (p.map Property.slot)) := by
  induction depth generalizing p v x st with
  | zero => exact absurd x.depth_pos (by omega)
  | succ depth ih =>
    cases sh with
    | leaf plain _ =>
      rw [Tree.noted, noting_nil]
      cases v <;> first | rfl | cases plain
    | @array a _ ys _ mem inside _ =>
      rw [Tree.depth] at le
      have items : st.heap.items a = h.items a :=
        (ext.changesOnly []).items a (hP _ mem) List.not_mem_nil
      have run : (within (depth + 1) p (.array a) c st).2.diagnostics =
          (each (within depth (p.bind (·.elementProperty?))) (h.items a) c st).2.diagnostics := by
        rw [← items]
        rfl
      have slot := Property.bind_element? p
      cases known with
      | scalar plain => cases plain
      | array elements =>
        rw [run, Tree.noted, slot]
        exact each_noted _ (within_extending _ _) inside (fun w hw y hy shown st ext => ih _
          (by have := Tree.depth_le_depths hy; omega) shown (slot ▸ elements w hw) ext) ext
    | @record r _ es _ mem keys inside _ =>
      rw [Tree.depth, Tree.depthOf_eq] at le
      rw [within_record]
      cases known with
      | scalar plain => cases plain
      | loose shape free _ =>
        rw [Tree.noted, shape, noting_nil, known?_of_free ext (hP _ mem) free]
        rw [shape?_eq] at shape
        cases hp : p.bind (·.type.model?) with
        | none => rfl
        | some t =>
          rw [hp, Option.filter_eq_none_iff] at shape
          rw [Option.map_some, Option.elim_some, dataOf_record, hc, if_neg (shape t rfl)]
      | @record _ t _ shape ties fields =>
        obtain ⟨declared, hstr⟩ := Option.filter_eq_some_iff.1 ((shape?_eq s p).symm.trans shape)
        rw [known?_of_ties ext (hP _ mem) ties declared, Option.elim_some, Tree.noted, shape]
        exact dataOf_noted (fun p => within depth (some p)) (fun p => within_extending depth (some p))
          hc hstr (hP _ mem) keys inside fields (fun w y p hy shown known st ext => ih (some p)
            (by have := Tree.depth_le_depths hy; omega) shown known ext) ext

/-- What is noted of a model of a type with properties, if its fields are known by the type. -/
theorem take_noted {roots : List Value} {ds : Option (List Diagnostic)} {m : ModelId}
    {r : RecordId} {es : Entries} (hstr : (s.type t).isStructured = true)
    (hP : ∀ u, P u → h.Holds u) (type : h.type m = t) (data : h.data m = .record r)
    (held : h.Holds (.record r)) (keys : (h.fields r).keys = es.keys)
    (sh : h.Shows P (h.fields r).values (es.map Prod.snd))
    (known : ∀ key, isReserved key = false →
      Known s h ((s.type t).slot? key) ((h.fields r).get key)) :
    (take s roots h ds (.model m)).2.diagnostics = noting ds (Tree.notedEntries s t es) := by
  have run : take s roots h ds (.model m) = dataOf (fun p => within h.size (some p)) t (.record r)
      ⟨s, roots⟩ ⟨h, ds⟩ := by
    rw [← type, ← data]
    rfl
  have le := (Shows.record (P := fun u => P u ∨ u = .record r) (Or.inr rfl) keys
    (sh.mono fun _ => Or.inl) .nil).depth_le fun u hu => hu.elim (hP u) fun e => e ▸ held
  rw [Tree.depth, Tree.depthOf_eq] at le
  rw [run]
  exact dataOf_noted (fun p => within h.size (some p)) (fun p => within_extending h.size (some p)) rfl
    hstr held keys sh known (fun v x p hx shown known st ext =>
      within_noted (c := ⟨s, roots⟩) rfl hP h.size (some p)
        (by have := Tree.depth_le_depths hx; omega) shown known ext) (.refl h)

theorem take_bare {roots : List Value} {ds : Option (List Diagnostic)} {m : ModelId}
    (type : h.type m = t) (hstr : (s.type t).isStructured = false) :
    take s roots h ds (.model m) = (h.data m, ⟨h, ds⟩) := by
  have run : take s roots h ds (.model m) = dataOf (fun p => within h.size (some p)) t (h.data m)
      ⟨s, roots⟩ ⟨h, ds⟩ := by
    rw [← type]
    rfl
  rw [run]
  cases hd : h.data m with
  | record r => rw [dataOf_record, hstr, if_neg Bool.false_ne_true]
  | _ => exact dataOf_other rfl

end Snapshot

/-- The diagnostic reports a key that is not recognised. -/
def Diagnostic.isUnrecognized : Diagnostic → Bool
  | .recorded e => e.isUnrecognized
  | .given _ => false

theorem Diagnostic.filter_recorded (es : List Error) :
    (es.map recorded).filter isUnrecognized = (es.filter Error.isUnrecognized).map recorded := by
  rw [List.filter_map]
  rfl

namespace Engine

open Heap Snapshot

variable {s : Schema} {c : Context} {st st' : State} {t : TypeId} {m : ModelId}

/-- **Construction and cleaning agree on what is not recognised.**  Let a schema be built without
hooks, all its types wrap the standard way and every property persist under its own name and declare
elements for arrays only.  If diagnostics are collected and a model is made of a fresh plain tree,
then the snapshot of the model, whatever is held, notes those among the new diagnostics that report
a key that is not recognised, in the same order, and no others. -/
theorem create_take_noted (u : s.Uniform) (hc : c.schema = s) (ht : t.index < s.models.size)
    (hp : st.options.property = none) {ds : List Diagnostic}
    (collecting : st.options.diagnostics = some ds) {data : Option Value}
    (run : create t data c st = (.ok m, st')) {cells : List Value}
    (trees : st.heap.Trees [data.getD .undefined] cells) (nodup : cells.Nodup)
    (held : ∀ v ∈ cells, st.heap.Holds v) :
    ∃ found, st'.options.diagnostics = some (ds ++ found) ∧
      ∀ roots noted, (take s roots st'.heap (some noted) (.model m)).2.diagnostics =
        some (noted ++ found.filter Diagnostic.isUnrecognized) := by
  have collects : st.options.collects = true := by
    unfold Options.collects
    rw [collecting]
    rfl
  have diagnostics : ∀ {es : List Error}, st'.options = st.options.noting es →
      st'.options.diagnostics = some (ds ++ es.map .recorded) := by
    intro es noted
    rw [noted, Options.noting, collecting]
    rfl
  cases hstr : (s.type t).isStructured with
  | false =>
    obtain ⟨noted, type⟩ :=
      create_bare u.built.stratified (u.regular.modelFree t) hc hp ht hstr collects run
    have same : st'.options = st.options.noting [] := noted.trans (Options.noting_nil _).symm
    refine ⟨[], diagnostics same, fun roots es => ?_⟩
    rw [take_bare type hstr, List.filter_nil, List.append_nil]
  | true =>
    obtain ⟨xs, sh⟩ := trees.shows
    obtain ⟨x, rfl⟩ := List.length_eq_one_iff.1 sh.length_eq.symm
    obtain ⟨y, hy, -, noted, standing⟩ := create_standing u.built.stratified (u.regular.modelFree t)
      hc hp hstr trees nodup held sh run
    obtain ⟨r, fields, rfl, stands⟩ := standing
    refine ⟨_, diagnostics (noted collects), fun roots es => ?_⟩
    rw [take_noted hstr (fun _ hu => hu.1) stands.type stands.data stands.held stands.keys
      stands.shows (stands.knows (u.regular.modelKeyed t)), Diagnostic.filter_recorded,
      Tree.constructed_noted u (sh.proper x List.mem_cons_self) hstr hy]
    rfl

/-! ### A crate of items -/

/-- What declares an item with a number. -/
def itemExtension : Extension :=
  { Extension.empty with name := some "Item", properties := [("n", .marker .number)] }

/-- What declares a crate with a list of items. -/
def crateExtension : Extension :=
  { Extension.empty with
    name := some "Crate", properties := [("items", .array [.type (.model ⟨1⟩)])] }

/-- The root, items and crates. -/
def crateSchema : Schema :=
  let s := (Schema.initial.addModel (.extended .root .root itemExtension
    [⟨"n", "n", .builtin .number, [], none, none, true⟩])).2
  (s.addModel (.extended .root .root crateExtension
    [⟨"items", "items", .builtin .array, [.model ⟨1⟩], none, none, true⟩])).2

theorem crateSchema_uniform : crateSchema.Uniform := by
  have built : crateSchema.Built :=
    (Schema.Built.initial.extend .root itemExtension (by decide) ⟨rfl, nofun, rfl, rfl⟩ rfl
      (by decide)).extend .root crateExtension (by decide) ⟨rfl, nofun, rfl, rfl⟩ rfl (by decide)
  exact built.uniform (by decide +kernel)

/-- A crate with one item, whose number is none, and with keys that are not recognised. -/
def crateData : Heap :=
  ⟨#[⟨.ofList [("items", .array ⟨0⟩), ("junk", .bool true)], none⟩,
    ⟨.ofList [("n", .string "x"), ("extra", .null)], none⟩], #[[.record ⟨1⟩]], #[]⟩

theorem crateData_trees : crateData.Trees [.record ⟨0⟩] [.record ⟨0⟩, .array ⟨0⟩, .record ⟨1⟩] := by
  have item : crateData.Trees (crateData.fields ⟨1⟩).values [] :=
    .scalar rfl (.scalar rfl .nil)
  have items : crateData.Trees (crateData.items ⟨0⟩) [.record ⟨1⟩] := .record rfl item .nil
  have crate : crateData.Trees (crateData.fields ⟨0⟩).values [.array ⟨0⟩, .record ⟨1⟩] :=
    .array items (.scalar rfl .nil)
  exact .record rfl crate .nil

/-- Makes a crate of the record. -/
def makeCrate : Except Fault ModelId × State :=
  create ⟨2⟩ (some (.record ⟨0⟩)) ⟨crateSchema, []⟩ ⟨crateData, ⟨some [], false, none⟩, []⟩

/-- The diagnostics of a crate with an item, and what its snapshot notes of it. -/
theorem create_take_noted_crate :
    makeCrate.1 = .ok ⟨0⟩ ∧
      makeCrate.2.options.diagnostics = some [.recorded (.invalidValue (some "n") "x"),
        .recorded (.unrecognizedKey "extra"), .recorded (.unrecognizedKey "junk")] ∧
      ∀ roots noted, (take crateSchema roots makeCrate.2.heap (some noted)
          (.model ⟨0⟩)).2.diagnostics = some (noted ++
            [.recorded (.unrecognizedKey "extra"), .recorded (.unrecognizedKey "junk")]) := by
  have made : makeCrate.1 = .ok ⟨0⟩ := by decide +kernel
  have run : makeCrate = (.ok ⟨0⟩, makeCrate.2) := by rw [← made]
  have diagnostics : makeCrate.2.options.diagnostics =
      some [.recorded (.invalidValue (some "n") "x"), .recorded (.unrecognizedKey "extra"),
        .recorded (.unrecognizedKey "junk")] := by decide +kernel
  refine ⟨made, diagnostics, fun roots noted => ?_⟩
  obtain ⟨found, recorded, snapshots⟩ := create_take_noted crateSchema_uniform rfl (by decide) rfl rfl
    run crateData_trees (by decide) (by simp [Heap.Holds, crateData])
  rw [diagnostics] at recorded
  cases recorded
  exact snapshots roots noted

end Engine

end Overlay
