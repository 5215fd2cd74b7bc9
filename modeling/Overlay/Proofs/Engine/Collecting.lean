import Overlay.Proofs.Plain.Collecting
import Overlay.Proofs.Snapshot.Noting

/-!
# Making models while diagnostics are collected

Where all types may be instantiated and wrap the standard way, making a model of a fresh plain tree
ends in one of two ways.  An array where a model type is declared is refused as no other value is:
it stops everything, whether diagnostics are collected or not.  Without one there is a model,
whatever the data.

* `Engine.create_collects` : **data do not stop collecting, but for an array that is to be
  wrapped.**
-/

namespace Overlay

namespace Engine

open Heap

variable {s : Schema} {c : Context} {st : State} {t : TypeId} {x : Tree} {cells : List Value}

/-- **Data do not stop collecting, but for an array that is to be wrapped.**  Let all types of a
schema be open and a model of one with properties be made of a fresh plain tree while diagnostics
are collected.  If an array stands where a model type is declared, in the fields and elements that
go through properties, then this stops with the error that arrays cannot be wrapped.  Otherwise
there is a model.  The new diagnostics are the objections to the tree, in order, and every entry of
the tree has been processed: what does not fit its property is undefined, and all else was taken. -/
theorem create_collects (o : s.Open) (hc : c.schema = s) (ht : t.index < s.models.size)
    (hstr : (s.type t).isStructured = true) (hp : st.options.property = none) {ds : List Diagnostic}
    (collecting : st.options.diagnostics = some ds) {data : Option Value}
    (trees : st.heap.Trees [data.getD .undefined] cells) (nodup : cells.Nodup)
    (held : ∀ v ∈ cells, st.heap.Holds v)
    (sh : st.heap.Shows (· ∈ cells) [data.getD .undefined] [x]) :
    if Tree.wrapsArrayUnder s t x.entries then
      (create t data c st).1 = .error (.error .wrappedArray)
    else
      ∃ m st' r fields, create t data c st = (.ok m, st') ∧
        st'.options.diagnostics = some (ds ++ List.map .recorded
          ((if x.isNothing || x.isRecord then [] else [.invalidValue none x.text]) ++
            Tree.objectionsUnder s st.options.strict t x.entries)) ∧
        Stands s t r m fields st'.heap ∧
        Tree.ProcessedUnder s st.options.strict t x.entries fields := by
  have collects : st.options.collects = true := by
    unfold Options.collects
    rw [collecting]
    rfl
  have ends := (create_judgedFrom o.built.stratified (o.free t) hc trees nodup held sh).collected
    (Request.run_orderly o.built (q := .create t data) ht) hc hp collects
  have verdict := Tree.constructed_collects o hstr st.options.strict none x
  unfold Verdict.Collects at verdict
  split at verdict
  · rename_i stops
    rw [if_pos stops]
    rw [verdict] at ends
    exact ends
  · rename_i goes
    rw [if_neg goes]
    obtain ⟨signalled, y, hy, fields, rfl, processed⟩ := verdict
    rw [hy] at ends
    obtain ⟨m, st', run, noted, standing⟩ := ends
    obtain ⟨r, fields', e, stands⟩ := standing hstr
    cases e
    refine ⟨m, st', r, fields, run, ?_, stands, processed⟩
    rw [noted, signalled, Options.noting, collecting]
    rfl

/-! ### Crates -/

theorem crateSchema_open : crateSchema.Open := crateSchema_uniform.built.isOpen (by decide +kernel)

/-- What the record of a crate looks like. -/
def crateTree : Tree :=
  .record [("items", .array [.record [("n", .leaf (.string "x")), ("extra", .leaf .null)]]),
    ("junk", .leaf (.bool true))]

theorem crateData_shows :
    crateData.Shows (· ∈ [.record ⟨0⟩, .array ⟨0⟩, .record ⟨1⟩]) [.record ⟨0⟩] [crateTree] := by
  refine .record (by decide) rfl ?_ .nil
  refine .array (by decide) ?_ (.leaf rfl .nil)
  refine .record (by decide) rfl ?_ .nil
  exact .leaf rfl (.leaf rfl .nil)

/-- A crate with an item whose number is a text that denotes none is made all the same, without the
number. -/
theorem create_collects_crate :
    ∃ m st r fields, ∃ item : Entries, makeCrate = (.ok m, st) ∧
      st.options.diagnostics = some [.recorded (.invalidValue (some "n") "x"),
        .recorded (.unrecognizedKey "extra"), .recorded (.unrecognizedKey "junk")] ∧
      Stands crateSchema ⟨2⟩ r m fields st.heap ∧
      fields.get "items" = .array [.record item] ∧ Entries.get "n" item = .leaf .undefined := by
  have ends := @create_collects crateSchema ⟨crateSchema, []⟩ ⟨crateData, ⟨some [], false, none⟩, []⟩
    ⟨2⟩ crateTree _ crateSchema_open rfl (by decide) (by decide +kernel) rfl [] rfl
    (some (.record ⟨0⟩)) crateData_trees (by decide) (by simp [Heap.Holds, crateData])
    crateData_shows
  rw [if_neg (by decide +kernel)] at ends
  obtain ⟨m, st, r, fields, run, diagnostics, stands, processed⟩ := ends
  -- the list of items is what became of the first entry, and the number of the item of its first
  have items : (crateSchema.type ⟨2⟩).through? "items" =
      some ⟨"items", "items", .builtin .array, [.model ⟨1⟩], none, none, true⟩ := by decide +kernel
  have n : (crateSchema.type ⟨1⟩).through? "n" =
      some ⟨"n", "n", .builtin .number, [], none, none, true⟩ := by decide +kernel
  have junk : (crateSchema.type ⟨2⟩).through? "junk" = none := by decide +kernel
  have extra : (crateSchema.type ⟨1⟩).through? "extra" = none := by decide +kernel
  obtain ⟨_, shown, y, _, rfl, inside, rfl⟩ := processed.1 _ items (by simp [junk])
  have form : Slot.form? crateSchema ⟨some "items", .model ⟨1⟩, []⟩ = some ⟨1⟩ := by decide +kernel
  have inside : Tree.Processed crateSchema false ⟨some "items", .model ⟨1⟩, []⟩
    (.record [("n", .leaf (.string "x")), ("extra", .leaf .null)]) y := inside
  rw [Tree.Processed, form] at inside
  obtain ⟨item, rfl, number, -⟩ := inside
  refine ⟨m, st, r, fields, item, run, ?_, stands, shown, ?_⟩
  · rw [diagnostics]
    decide +kernel
  · exact Eq.trans (number _ n (by simp [extra])) (congrArg Tree.leaf (by decide +kernel))

/-- When diagnostics are not collected, the first of these errors stops it. -/
example : (create ⟨2⟩ (some (.record ⟨0⟩)) ⟨crateSchema, []⟩ ⟨crateData, .throwing, []⟩).1 =
    .error (.error (.invalidValue (some "n") "x")) := by
  decide +kernel

/-- A crate with an array for an item. -/
def nestedData : Heap :=
  ⟨#[⟨.ofList [("items", .array ⟨0⟩)], none⟩], #[[.array ⟨1⟩], []], #[]⟩

/-- An array in the list of items stops making the crate, although diagnostics are collected.  A
number in its place would be recorded and left out. -/
theorem nested_not_made :
    crateSchema.Open ∧ nestedData.Trees [.record ⟨0⟩] [.record ⟨0⟩, .array ⟨0⟩, .array ⟨1⟩] ∧
      (create ⟨2⟩ (some (.record ⟨0⟩)) ⟨crateSchema, []⟩
        ⟨nestedData, ⟨some [], false, none⟩, []⟩).1 = .error (.error .wrappedArray) := by
  refine ⟨crateSchema_open, ?_, by decide +kernel⟩
  have inner : nestedData.Trees (nestedData.items ⟨1⟩) [] := .nil
  have items : nestedData.Trees (nestedData.items ⟨0⟩) [.array ⟨1⟩] := .array inner .nil
  have crate : nestedData.Trees (nestedData.fields ⟨0⟩).values [.array ⟨0⟩, .array ⟨1⟩] :=
    .array items .nil
  exact .record rfl crate .nil

end Engine

end Overlay
