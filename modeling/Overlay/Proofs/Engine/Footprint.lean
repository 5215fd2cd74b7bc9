import Overlay.Proofs.Engine.Readable
import Overlay.Proofs.Engine.Routing
import Overlay.Proofs.Heap.Shows

/-!
# What a set may change

Without hooks, what becomes of a value that is set is settled within the value: the records and
arrays that it leads to may change, and only then does the model's record get it.  So a set that
fails leaves the record as it was, unless the value leads to it.  This asks something of the
property alone: the other types of the schema may have hooks and enumerations.

* `Engine.Routing.missing` : the ways of values that lead to none of some cells;
* `Engine.prepared_framed` : nothing changes outside of the value until it is stored;
* `Engine.set_footprint` : **a set changes nothing but what the value leads to and one field.**
-/

namespace Overlay

namespace Fields

variable {f : Fields} {key : String} {value : Value}

theorem filter_keys_insert :
    (f.insert key value).keys.filter (· ≠ key) = f.keys.filter (· ≠ key) := by
  by_cases hv : value = .undefined
  · rw [hv, insert_undefined, keys_remove, List.filter_filter]
    simp
  · rw [keys_insert hv]
    split
    · rfl
    · simp

end Fields

namespace Engine

open Heap

variable {s : Schema} {c : Context} {st : State} {m : ModelId} {p : Property} {v : Value}
  {own : RecordId}

/-- The records and arrays that are there and that the value does not lead to. -/
def Beyond (h : Heap) (v w : Value) : Prop :=
  (h.Holds w ∧ (w.isRecord = true ∨ w.isArray = true)) ∧ ¬ h.Reachable [v] w

theorem beyond_houses (h : Heap) (v : Value) : h.Houses (Beyond h v) := fun _ hw => hw.1

theorem beyond_misses (h : Heap) (v : Value) : h.Misses (Beyond h v) v := fun _ hw => hw.2

/-- Where nothing changes beyond a value that shows a tree, nothing but cells of the tree
changes. -/
theorem changesOnly_of_framed {h h' : Heap} {cells : List Value} {x : Tree}
    (framed : Framed s (Beyond h v) h h') (sh : h.Shows (· ∈ cells) [v] [x]) :
    h.ChangesOnly h' cells := by
  have outside : ∀ {w}, h.Holds w → w.isRecord = true ∨ w.isArray = true → w ∉ cells →
      Beyond h v w := by
    intro w held kind out
    refine ⟨⟨held, kind⟩, fun reach => ?_⟩
    obtain ⟨y, sh⟩ := sh.reachable reach
    cases sh with
    | leaf plain => cases w <;> first | cases plain; done | rcases kind with kind | kind <;> cases kind
    | array mem => exact out mem
    | record mem => exact out mem
  exact ⟨framed.grows, fun r held out => framed.fields r (outside held (Or.inl rfl) out),
    fun r held out => framed.attached r (outside held (Or.inl rfl) out),
    fun a held out => framed.items a (outside held (Or.inr rfl) out)⟩

/-! ### The ways of the value -/

/-- What is stored in place of a value that does not lead to the cells does not lead to them. -/
theorem misses_of_yields {K : Value → Prop} {start h : Heap} (framed : Framed s K start h)
    (houses : start.Houses K) {w : Value} (yields : h.Yields v w) (misses : start.Misses K v) :
    start.Misses K w := by
  induction yields with
  | same => exact misses
  | void => exact .scalar houses.kind fun _ => trivial
  | scalar _ _ plain => exact .scalar houses.kind fun h => h.holds_of_isScalar plain
  | data _ ih => exact ih (framed.inside misses (List.mem_singleton.2 rfl))

/-- What is followed where nothing leads to the cells: neither what comes anywhere nor a record that
it comes into. -/
def Routing.missing (s : Schema) {start : Heap} {K : Value → Prop} (houses : start.Houses K) :
    Routing s where
  held := []
  Keeps := Framed s K start
  At h spot v := h.Holds v ∧ start.Misses K v ∧
    ∀ r key, spot = .field r key → start.Misses K (.record r)
  there _ comes := comes.1
  grows grows comes := ⟨comes.1.grows grows, comes.2⟩
  scalar comes plain := ⟨holds_of_isScalar _ plain,
    .scalar houses.kind fun h => h.holds_of_isScalar plain, comes.2.2⟩
  data closed framed comes := ⟨closed.sealed.data comes.1,
    framed.inside comes.2.1 (List.mem_singleton.2 rfl), comes.2.2⟩
  element i closed framed comes _ :=
    ⟨closed.sealed.item comes.1 i, (framed.sealed houses).item comes.2.1 i, nofun⟩
  enter _ comes _ _ := ⟨comes.1, comes.2.1, nofun⟩
  entry {h r _ _ _ x} closed framed comes _ _ hx := by
    have child : x ∈ h.children (.record r) := List.mem_map.2 ⟨_, hx, rfl⟩
    have there := closed (.record r) comes.1 x child
    have misses := framed.inside comes.2.1 child
    exact ⟨⟨there, misses, nofun⟩, there, misses, fun _ _ e => by cases e; exact comes.2.1⟩
  insert framed comes := framed.move houses (.insert (comes.2.2 _ _ rfl) _ comes.2.1)
  setItem {_ _ _ _ _ i _} _ framed framed' _ comes _ yields :=
    framed'.move houses (.setItem comes.2.1 i
      (misses_of_yields framed houses yields ((framed.sealed houses).item comes.2.1 i)))
  release framed comes _ _ _ data :=
    framed.move houses (.detach (framed.inside comes.2.1 (List.mem_singleton.2 data.symm)))
  attach framed comes there data structured :=
    framed.move houses (.attach comes.2.1 there data structured)
  addModel t framed comes shape := framed.move houses (.addModel t comes.2.1 shape)

section Missing

variable {K : Value → Prop} (hc : c.schema = s) (free : s.FreeSlot p.slot) (closed : st.heap.Closed)
  (tied : st.heap.Tied s) (hv : st.heap.Holds v) (depth : Nat) (houses : st.heap.Houses K)
  (misses : st.heap.Misses K v)

include closed tied in
theorem Routing.missing_sound (roots : List Value) :
    (Routing.missing s houses).Sound roots st.heap :=
  ⟨closed, .refl tied, fun _ hw => absurd hw List.not_mem_nil, fun _ hw => absurd hw List.not_mem_nil⟩

include hc free closed tied hv houses misses

/-- Nothing changes outside of a value while it is prepared. -/
theorem prepared_framed :
    Framed s K st.heap (prepared (Engine.perform depth) p v c st).2.heap :=
  (Routing.prepared_follows (Routing.perform_served _ depth) hc
    (Routing.missing_sound closed tied houses _) free ⟨hv, misses, nofun⟩).kept.keeps

/-- Nor while it is stored as an element, and what is stored is there. -/
theorem stored_framed :
    let run := stored (Engine.perform depth) p v c st
    Framed s K st.heap run.2.heap ∧ run.2.heap.Closed ∧ ∀ w, run.1 = .ok w → run.2.heap.Holds w := by
  have follows := Routing.stored_follows (Routing.perform_served _ depth) hc
    (Routing.missing_sound closed tied houses _) free ⟨hv, misses, nofun⟩
  exact ⟨follows.kept.keeps, follows.kept.closed, fun w ok =>
    ((follows.post w ok).holds closed hv).grows follows.kept.grows⟩

end Missing

/-- **A set changes nothing but what the value leads to and one field.**  Let a value be set for a
property without hooks, with any options, where the value does not lead to the record of the model.
Whether this succeeds or fails, it changes no field of another record and no element of an array,
unless the value leads to it.  If it fails, the fields of the model's record are the same, and if it
succeeds, they differ under the storage key of the property at most, and the other keys are in the
same order. -/
theorem set_footprint (hc : c.schema = s) (setter : p.setter = none) (free : s.FreeSlot p.slot)
    (reached : st.heap.Reached s)
    (hv : st.heap.Holds v) (hm : st.heap.Holds (.model m))
    (record : st.heap.record? m = some own) (avoids : ¬ st.heap.Reachable [v] (.record own)) :
    (∀ r, r ≠ own → st.heap.Holds (.record r) → ¬ st.heap.Reachable [v] (.record r) →
      (setProperty m p v c st).2.heap.fields r = st.heap.fields r) ∧
    (∀ a, st.heap.Holds (.array a) → ¬ st.heap.Reachable [v] (.array a) →
      (setProperty m p v c st).2.heap.items a = st.heap.items a) ∧
    (∀ fault, (setProperty m p v c st).1 = .error fault →
      (setProperty m p v c st).2.heap.fields own = st.heap.fields own) ∧
    ((setProperty m p v c st).1 = .ok () →
      (∀ key, key ≠ p.storageKey → ((setProperty m p v c st).2.heap.fields own).get key =
        (st.heap.fields own).get key) ∧
      ((setProperty m p v c st).2.heap.fields own).keys.filter (· ≠ p.storageKey) =
        (st.heap.fields own).keys.filter (· ≠ p.storageKey)) := by
  have data := st.heap.data_of_record? record
  have held : st.heap.Holds (.record own) := data ▸ reached.closed.sealed.data hm
  obtain ⟨d, hd⟩ := setProperty_run m p v c st
  have frame := prepared_framed (c := { c with held := [.model m] ++ c.held }) hc free reached.closed
    reached.tied hv (d + 1) (beyond_houses st.heap v) (beyond_misses st.heap v)
  rw [hd, writeProperty_run _ setter]
  generalize prepared (Engine.perform (d + 1)) p v { c with held := [.model m] ++ c.held } st = mid
    at frame
  have outside : ∀ {r}, st.heap.Holds (.record r) → ¬ st.heap.Reachable [v] (.record r) →
      Beyond st.heap v (.record r) := fun hr out => ⟨⟨hr, Or.inl rfl⟩, out⟩
  have kept := frame.fields own (outside held avoids)
  -- preparing the value touches nothing outside it; the write then touches one field of `own`
  obtain ⟨fault | w, st'⟩ := mid
  · refine ⟨fun r _ hr out => frame.fields r (outside hr out),
      fun a ha out => frame.items a ⟨⟨ha, Or.inr rfl⟩, out⟩, fun _ _ => kept, (fun e => by cases e)⟩
  · -- the record of the model is still its own, and gets the value
    have record' := st'.heap.record?_of_data ((frame.grows.data_eq hm).trans data)
    have fields : ∀ r, (st'.heap.insert own p.storageKey w).fields r =
        if r = own then (st.heap.fields own).insert p.storageKey w else st'.heap.fields r := by
      intro r
      rw [fields_insert]
      by_cases hr : r = own
      · rw [if_pos ⟨hr, held.grows frame.grows⟩, if_pos hr, hr]
        exact congrArg (·.insert p.storageKey w) kept
      · rw [if_neg fun e => hr e.1, if_neg hr]
    dsimp only [wrote]
    rw [record', Option.elim_some]
    refine ⟨fun r ne hr out => ?_, fun a ha out => frame.items a ⟨⟨ha, Or.inr rfl⟩, out⟩,
      (fun _ e => by cases e), fun _ => ⟨fun key ne => ?_, ?_⟩⟩
    · rw [fields, if_neg ne]
      exact frame.fields r (outside hr out)
    · rw [fields, if_pos rfl, Fields.get_insert, if_neg ne]
    · rw [fields, if_pos rfl]
      exact Fields.filter_keys_insert

/-! ### A box on its own -/

/-- An empty box with its model, and the records of two items that are in no box. -/
def apartItems : Heap :=
  let h := ((Heap.empty.addRecord .empty).2.addModel ⟨2⟩ (.record ⟨0⟩)).2.setWrapper ⟨0⟩ (some ⟨0⟩)
  let h := (h.recordOf [("n", .string "5")]).2
  (h.recordOf [("n", .string "7")]).2

/-- Puts the first item into the box. -/
def packItem : Except Fault Unit × State :=
  setProperty ⟨0⟩ Run.boxedItem (.record ⟨1⟩) ⟨Run.boxSchema, []⟩ ⟨apartItems, .throwing, []⟩

theorem apartItems_reached : apartItems.Reached Run.boxSchema := by
  have record : Heap.empty.Steps Run.boxSchema True (Heap.empty.addRecord .empty).2 :=
    .single (.addRecord fun _ hw => absurd hw List.not_mem_nil)
  refine (((record.tail (.addModel ⟨2⟩ ?_ ?_)).tail (.attach ?_ ?_ ?_)).tail (.addRecord ?_)).tail
    (.addRecord ?_)
  all_goals decide +kernel

theorem item_misses {w : Value} (ne : w ≠ .record ⟨1⟩)
    (kind : w.isRecord = true ∨ w.isArray = true) : ¬ apartItems.Reachable [.record ⟨1⟩] w := by
  have misses : apartItems.Misses (fun u => u = w) (.record ⟨1⟩) := by
    refine .of_children (fun e => ne e.symm) fun u hu => ?_
    obtain rfl : u = .string "5" := List.mem_singleton.1 hu
    exact .scalar (fun x e => e ▸ kind) fun _ => trivial
  exact misses w rfl

/-- The item in the box has got a number, and the other one is as it was. -/
theorem set_footprint_box :
    packItem.1 = .ok () ∧ (packItem.2.heap.fields ⟨1⟩).get "n" = .number (.ofInt 5) ∧
      packItem.2.heap.fields ⟨2⟩ = apartItems.fields ⟨2⟩ := by
  have declared : (Run.boxSchema.type ⟨2⟩).property? "item" = some Run.boxedItem := by
    decide +kernel
  have free : Run.boxSchema.FreeSlot Run.boxedItem.slot :=
    ((Run.boxSchema_regular.modelFree ⟨2⟩).property Run.boxSchema_regular.built.stratified
      declared).slot
  have footprint := @set_footprint Run.boxSchema ⟨Run.boxSchema, []⟩ ⟨apartItems, .throwing, []⟩ ⟨0⟩
    Run.boxedItem (.record ⟨1⟩) ⟨0⟩ rfl rfl free apartItems_reached (by decide) (by decide) rfl
    (item_misses (by decide) (Or.inl rfl))
  have other := footprint.1 ⟨2⟩ (by decide) (by decide) (item_misses (by decide) (Or.inl rfl))
  refine ⟨by decide +kernel, by decide +kernel, ?_⟩
  unfold packItem
  exact other

end Engine

end Overlay
