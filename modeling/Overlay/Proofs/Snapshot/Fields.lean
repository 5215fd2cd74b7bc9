import Overlay.Proofs.Engine.Wrapping
import Overlay.Proofs.Snapshot.RoundTrip

/-!
# Which fields a snapshot shows

A field is written under the storage key of its property, but the data a model is made of may have
it under the name, and construction leaves what is there.  A snapshot shows what is current under
each storage key, and it shows what was handed in under another key of a persisted property for as
long as the model lives.

* `Engine.Written` : a model was made of plain data, and properties of it were set;
* `Engine.Written.shows_fields` : **what its snapshot shows**, and when it shows nothing else;
* `Engine.label_keeps_number` : a field that is gone may still be seen.
-/

namespace Overlay

/-- The keys of a value, if it is a record. -/
def Heap.keysOf (h : Heap) : Value → List String
  | .record r => (h.fields r).keys
  | _ => []

theorem Heap.Shows.keysOf_eq {h : Heap} {P : Value → Prop} {v : Value} {x : Tree}
    (sh : h.Shows P [v] [x]) : h.keysOf v = x.entries.keys := by
  cases sh with
  | leaf plain _ => cases v <;> first | rfl | cases plain
  | array _ _ _ => rfl
  | record _ keys _ _ => exact keys

namespace Engine

open Heap Snapshot

variable {s : Schema} {t : TypeId} {m : ModelId} {h : Heap} {given : List String}

/-- A model of the type was made in throwing mode of a fresh plain tree with these keys, and then
properties of it were set to fresh plain trees, in any mode.  Each time other values may have been
in use. -/
inductive Written (s : Schema) (t : TypeId) (m : ModelId) : List String → Heap → Prop
  | create {c : Context} {st st' : State} {data : Option Value} {cells : List Value}
      (schema : c.schema = s) (options : st.options.property = none)
      (throwing : st.options.diagnostics = none)
      (trees : st.heap.Trees [data.getD .undefined] cells) (nodup : cells.Nodup)
      (held : ∀ v ∈ cells, st.heap.Holds v) (run : Engine.create t data c st = (.ok m, st')) :
      Written s t m (st.heap.keysOf (data.getD .undefined)) st'.heap
  | set {c : Context} {st st' : State} {given : List String} {h : Heap} {name : String} {v : Value}
      (before : Written s t m given h) (schema : c.schema = s)
      (options : st.options.property = none) (supply : h.Supplies st.heap [v])
      (run : Engine.set m name v c st = (.ok (), st')) : Written s t m given st'.heap

/-- The model stands for fields.  Those under keys where no property is stored are from the data it
was made of. -/
theorem Written.stands (hs : s.Stratified) (free : s.Free (.model t))
    (hstr : (s.type t).isStructured = true) (w : Written s t m given h) :
    ∃ r fields, Stands s t r m fields h ∧
      ∀ k, Tree.Unstored (s.type t) k → (k ∈ fields.keys ↔ k ∈ given) := by
  induction w with
  | @create c st st' data cells schema options throwing trees nodup held run =>
    obtain ⟨xs, sh⟩ := trees.shows
    obtain ⟨x, rfl⟩ := List.length_eq_one_iff.1 sh.length_eq.symm
    obtain ⟨y, -, quiet, -, standing⟩ := create_standing hs free schema options hstr trees nodup held
      sh run
    obtain ⟨-, fields, rfl, admitted⟩ := Tree.constructed_pure hstr (quiet throwing)
    obtain ⟨r, fields', e, stands⟩ := standing
    cases e
    obtain - | - | @⟨_, tidy, -⟩ := (sh.proper x List.mem_cons_self).entries
    obtain ⟨-, -, more, keys, source⟩ := Tree.admitted_keys admitted tidy.defined_mem tidy
    refine ⟨r, fields, stands, fun k unstored => ?_⟩
    have out : k ∉ more := fun hk => by
      obtain ⟨e, -, p, hp, he⟩ := source k hk
      exact unstored e.1 p (ModelType.through?_eq_some.1 hp).2 he
    rw [keys, sh.keysOf_eq, List.mem_append, or_iff_left out]
  | set before schema options supply run ih =>
    obtain ⟨r, fields, stands, others⟩ := ih
    obtain ⟨p, y, hp, stands'⟩ := set_stands hs free schema options stands supply run
    refine ⟨r, _, stands', fun k unstored => ?_⟩
    rw [Entries.mem_keys_put fun e => unstored _ p hp e.symm]
    exact others k unstored

/-- A key that finds a property stored elsewhere has no property stored under it. -/
theorem unstored_of_property? (hs : s.Stratified) (keyed : (s.type t).WellKeyed) {key : String}
    {p : Property}
    (hp : (s.type t).property? key = some p) (hk : key ≠ p.storageKey) :
    Tree.Unstored (s.type t) key := by
  intro key' q hq e
  subst e
  have found := ModelType.WellKeyed.found_by_storageKey keyed (hs.placedAt t) hq
  rw [found] at hp
  exact hk (congrArg Property.storageKey (Option.some.inj hp))

/-- **What a snapshot shows.**  Let a type with properties be free of hooks, and none of its
properties be stored under the name or the storage key of another one, there and wherever it leads.
Let a model of the type have been made of a fresh plain tree in throwing mode, and its properties
set to fresh plain trees.  Then, whatever is held, its snapshot is a record, which has the storage
key of a property, unless that is reserved, just if the property is persisted and the field is not
undefined, and has the clean form of the field there.  No other key of it finds a property just if
the data that the model was made of had no persisted property under another key than its storage
key. -/
theorem Written.shows_fields (hs : s.Stratified) (free : s.Free (.model t))
    (keyed : s.Keyed (.model t)) (hstr : (s.type t).isStructured = true) (w : Written s t m given h)
    (roots : List Value)
    (ds : Option (List Diagnostic)) {v : Value} {sn : Snapshot.State}
    (snap : take s roots h ds (.model m) = (v, sn)) :
    ∃ r, v = .record r ∧
      (∀ key p, (s.type t).property? key = some p → isReserved p.storageKey = false →
        (p.storageKey ∈ (sn.heap.fields r).keys ↔
          p.isPersisted = true ∧ fieldOf h m p ≠ .undefined) ∧
        (p.isPersisted = true → ∃ x, h.Shows (fun _ => True) [fieldOf h m p] [x] ∧
          sn.heap.Shows (fun _ => True) [(sn.heap.fields r).get p.storageKey]
            [x.cleaned s (some p.slot)])) ∧
      ((∀ key ∈ (sn.heap.fields r).keys, ∀ p, (s.type t).property? key = some p →
          key = p.storageKey) ↔
        ∀ key ∈ given, isReserved key = false → ∀ p, (s.type t).property? key = some p →
          p.isPersisted = true → key = p.storageKey) := by
  obtain ⟨r₀, fields, stands, others⟩ := w.stands hs free hstr
  obtain ⟨r, T, shown, rebuilt⟩ := stands.rebuilt keyed hstr roots ds
  rw [snap] at shown rebuilt
  have keys : (sn.heap.fields r).keys = fields.keys.filter (s.type t).keeps :=
    rebuilt.keys.trans Tree.keys_cleanedEntries
  have keeps : ∀ {key p}, isReserved key = false → (s.type t).property? key = some p →
      (s.type t).keeps key = p.isPersisted := by
    intro key p hk hp
    unfold ModelType.keeps
    rw [hk, hp]
    rfl
  refine ⟨r, shown, fun key p hp hres => ?_, ?_⟩
  · have found := ModelType.WellKeyed.found_by_storageKey keyed.wellKeyed (hs.placedAt t) hp
    have field := fieldOf_of_data stands.data p
    refine ⟨?_, fun persisted => ⟨fields.get p.storageKey, ?_, ?_⟩⟩
    · rw [keys, List.mem_filter, keeps hres found, ← stands.keys, Fields.mem_keys_iff, field,
        and_comm]
    · rw [field]
      exact (stands.shows.get stands.keys p.storageKey).mono fun _ _ => trivial
    · have copy := rebuilt.inside.laid.shows.get rebuilt.keys p.storageKey
      rw [Tree.get_cleanedEntries ((keeps hres found).trans persisted),
        ModelType.slot?_of_data hres, found] at copy
      exact copy.mono fun _ _ => trivial
  · rw [keys]
    constructor
    · intro none key hk hres p hp persisted
      by_contra other
      have mem := (others key (unstored_of_property? hs keyed.wellKeyed hp other)).2 hk
      exact other (none key (List.mem_filter.2 ⟨mem, (keeps hres hp).trans persisted⟩) p hp)
    · intro none key hk p hp
      obtain ⟨mem, kept⟩ := List.mem_filter.1 hk
      by_contra other
      have hres : isReserved key = false := by
        unfold ModelType.keeps at kept
        exact Bool.not_eq_true' _ ▸ (Bool.and_eq_true_iff.1 kept).1
      have given := (others key (unstored_of_property? hs keyed.wellKeyed hp other)).1 mem
      exact other (none key given hres p hp ((keeps hres hp).symm.trans kept))

/-! ### A label without a number -/

/-- Sets the number of the label in a heap. -/
def relabel (h : Heap) (v : Value) : Except Fault Unit × State :=
  set ⟨0⟩ "size" v ⟨labelSchema, [.model ⟨0⟩]⟩ ⟨h, .throwing, []⟩

theorem written_makeLabel (key : String)
    (data : ((labelData key).fields ⟨0⟩).values = [.string "2"])
    (made : (makeLabel key).1 = .ok ⟨0⟩) :
    Written labelSchema ⟨1⟩ ⟨0⟩ ((labelData key).fields ⟨0⟩).keys (makeLabel key).2.heap := by
  have run : makeLabel key = (.ok ⟨0⟩, (makeLabel key).2) := by rw [← made]
  exact .create rfl rfl rfl (labelData_trees data) (by decide) (by simp [Heap.Holds, labelData]) run

theorem written_relabel {v : Value} (w : Written labelSchema ⟨1⟩ ⟨0⟩ given h)
    (plain : v.isScalar = true) (done : (relabel h v).1 = .ok ()) :
    Written labelSchema ⟨1⟩ ⟨0⟩ given (relabel h v).2.heap := by
  have run : relabel h v = (.ok (), (relabel h v).2) := by rw [← done]
  unfold relabel at run
  exact .set w rfl rfl ⟨.refl _, [], .scalar plain .nil, List.nodup_nil,
    fun _ h => absurd h List.not_mem_nil⟩ run

/-- A label that was made of a text under the storage key of its number shows no other key. -/
theorem shows_fields_label :
    ∃ r, (labelSnapshot (relabel (makeLabel "s").2.heap (.string "3")).2.heap).1 = .record r ∧
      ∀ key ∈ ((labelSnapshot
          (relabel (makeLabel "s").2.heap (.string "3")).2.heap).2.heap.fields r).keys,
        ∀ p, (labelSchema.type ⟨1⟩).property? key = some p → key = p.storageKey := by
  have written := written_relabel (v := .string "3")
    (written_makeLabel "s" rfl (by decide +kernel)) rfl (by decide +kernel)
  rcases snap : labelSnapshot (relabel (makeLabel "s").2.heap (.string "3")).2.heap with ⟨v, sn⟩
  obtain ⟨r, shown, -, others⟩ := written.shows_fields labelSchema_regular.built.stratified
    (labelSchema_regular.modelFree _) (labelSchema_regular.modelKeyed _) (by decide +kernel)
    [.model ⟨0⟩] none snap
  refine ⟨r, shown, others.2 fun key hk _ p hp _ => ?_⟩
  obtain rfl : key = "s" := List.mem_singleton.1 hk
  have found : (labelSchema.type ⟨1⟩).property? "s" = some labelSize := by decide +kernel
  cases found.symm.trans hp
  rfl

/-- A label that was made of a text under the name of its number still shows it when the number was
set to the undefined value. -/
theorem label_keeps_number :
    labelSchema.Regular ∧
      Written labelSchema ⟨1⟩ ⟨0⟩ ["size"]
        (relabel (makeLabel "size").2.heap .undefined).2.heap ∧
      fieldOf (relabel (makeLabel "size").2.heap .undefined).2.heap ⟨0⟩ labelSize = .undefined ∧
      (labelSnapshot (relabel (makeLabel "size").2.heap .undefined).2.heap).1 = .record ⟨1⟩ ∧
      ((labelSnapshot
          (relabel (makeLabel "size").2.heap .undefined).2.heap).2.heap.fields ⟨1⟩).entries =
        [("size", .string "2")] :=
  ⟨labelSchema_regular,
    written_relabel (written_makeLabel "size" rfl (by decide +kernel)) rfl (by decide +kernel),
    by decide +kernel, by decide +kernel, by decide +kernel⟩

end Engine

end Overlay
