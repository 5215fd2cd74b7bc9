import Overlay.Proofs.Engine.Elementwise
import Overlay.Proofs.Engine.Planted
import Overlay.Proofs.Engine.Identity
import Overlay.Proofs.Engine.Reassigning

/-!
# What is set is what is got

Setting a property of a model that holds plain data, to plain data, and getting properties obey the
laws of a record with independent fields.  Getting a property shows what was stored when it was set,
in the form of its type, and what getting another property shows is not affected.

What getting shows depends on the stored value, its text, and the model that is found from it
(`Schema.shown`).  That model is found as before: what is set leads to no models, and the data that
it replaces led to none.

* `Heap.reachable_iff_of_children` : whether values lead to a cell, when cells change;
* `Engine.get_seen` : what getting shows;
* `Engine.set_ready` : what setting writes;
* `Engine.set_get_lawful` : **setting and getting form a lawful pair.**

Data are not checked under reserved keys, so getting what is stored there may have failed before,
and then it still does (`Engine.spare_not_got`).
-/

namespace Overlay

/-! ### What leads to a model -/

namespace Heap

variable {h h' : Heap} {roots : List Value} {v w z : Value}

/-- The roots lead to the cell as before, if what leads to it keeps the parts that do, and what does
not lead to it gets none that do. -/
theorem reachable_iff_of_children
    (keeps : ∀ {u w}, w ∈ h.children u → h.Reachable [w] z → w ∈ h'.children u)
    (adds : ∀ {u w}, ¬ h.Reachable [u] z → w ∈ h'.children u → ¬ h.Reachable [w] z) :
    h'.Reachable roots z ↔ h.Reachable roots z := by
  constructor
  · intro reach
    by_contra none
    have avoided : ∀ u, h'.Reachable roots u → ¬ h.Reachable [u] z := by
      intro u hu
      induction hu with
      | root mem =>
        exact fun reach => none (reach.of_roots fun _ e => .root (List.mem_singleton.1 e ▸ mem))
      | child _ mem ih => exact adds ih mem
    exact avoided z reach (.root List.mem_cons_self)
  · exact fun reach => reach.of_children keeps

/-- What is seen of a value: of a model its type and its datum. -/
def sight (h : Heap) : Value → Option TypeId × Value
  | .model m => (some (h.type m), h.data m)
  | v => (none, v)

theorem sight_model (h : Heap) (m : ModelId) : h.sight (.model m) = (some (h.type m), h.data m) :=
  rfl

theorem sight_of_raw (h : Heap) (raw : v.isModel = false) : h.sight v = (none, v) := by
  cases v <;> first | rfl | cases raw

theorem Grows.sight_eq (grows : h.Grows h') {m : ModelId} (there : h.Holds (.model m)) :
    h'.sight (.model m) = h.sight (.model m) := by
  rw [sight_model, sight_model, grows.type_eq there, grows.data_eq there]

theorem Shows.not_reachable_model {P : Value → Prop} {x : Tree} {m : ModelId}
    (sh : h.Shows P [v] [x]) : ¬ h.Reachable [v] (.model m) := fun reach => by
  obtain ⟨y, sh⟩ := sh.reachable reach
  cases sh.not_model

theorem Shows.holds {P : Value → Prop} {x : Tree} (sh : h.Shows P [v] [x])
    (there : ∀ u, P u → h.Holds u) : h.Holds v := by
  cases sh with
  | leaf plain => exact h.holds_of_isScalar plain
  | array mem => exact there _ mem
  | record mem => exact there _ mem

theorem Shows.avoids {P : Value → Prop} {x : Tree} {r : RecordId} (sh : h.Shows P [v] [x])
    (out : ¬ P (.record r)) : h.Avoids r v := fun reach => by
  obtain ⟨y, sh⟩ := sh.reachable reach
  cases sh with
  | leaf plain => cases plain
  | record mem => exact out mem

end Heap

namespace Engine

open Heap

variable {s : Schema} {c : Context} {st st' : State} {t : TypeId} {m i : ModelId} {p q : Property}
  {v w : Value} {r o : RecordId} {h h' : Heap} {x y : Tree} {cells roots : List Value}

/-- Nothing that the value does not lead to has other parts. -/
theorem children_of_framed (framed : Framed s (Beyond h v) h h') {u : Value} (held : h.Holds u)
    (out : ¬ h.Reachable [v] u) : h'.children u = h.children u := by
  cases u with
  | record r => exact congrArg Fields.values (framed.fields r ⟨⟨held, Or.inl rfl⟩, out⟩)
  | array a => exact framed.items a ⟨⟨held, Or.inr rfl⟩, out⟩
  | model m => exact congrArg (fun v => [v]) (framed.grows.data_eq held)
  | _ => rfl

/-- A model is held as before when a tree has been prepared and written into a record of trees, of
which its own record is no part. -/
theorem reachable_model_iff (beyond : Framed s (Beyond h v) h h')
    (apart : Framed s (· = .record o) h h') (there : h.Holds (.record o))
    (data : h.data i = .record o) (avoids : h.Avoids o v) (held : h.Holds (.record r))
    (out : h.Avoids r v) {P : Value → Prop} {xs : List Tree}
    (shows : h.Shows P (h.fields r).values xs) (stored : w.isScalar = true ∨ w = v) (key : String) :
    (h'.insert r key w).Reachable roots (.model i) ↔ h.Reachable roots (.model i) := by
  have through : ∀ {u}, h.Reachable [u] (.model i) → h.Reachable [u] (.record o) := fun reach =>
    .child reach (List.mem_singleton.2 data.symm)
  -- what leads to the model leads to its record, and what was set does not
  have same : ∀ {u}, h.Reachable [u] (.record o) → h'.children u = h.children u := by
    intro u reach
    refine children_of_framed beyond ?_ fun later => ?_
    · by_contra gone
      refine Misses.of_not_holds (K := (· = .record o)) (fun w e => ?_) gone _ rfl reach
      exact e ▸ ⟨there, Or.inl rfl⟩
    · exact avoids (reach.of_roots fun _ e => List.mem_singleton.1 e ▸ later)
  have own : ∀ w ∈ (h.fields r).values, ¬ h.Reachable [w] (.model i) := fun w hw => by
    obtain ⟨x, -, sh⟩ := shows.exists_of_mem hw
    exact sh.not_reachable_model
  have written : ¬ h.Reachable [w] (.model i) := by
    rcases stored with plain | rfl
    · exact (Shows.leaf (P := fun _ => True) plain .nil).not_reachable_model
    · exact fun reach => avoids (through reach)
  have other : ∀ {u}, u ≠ .record r → (h'.insert r key w).children u = h'.children u := by
    intro u ne
    cases u with
    | record r' =>
      refine congrArg Fields.values ((fields_insert ..).trans (if_neg fun e => ?_))
      exact ne (congrArg Value.record e.1)
    | _ => rfl
  refine reachable_iff_of_children (fun {u w} mem later => ?_) fun {u w} none mem => ?_
  · have ne : u ≠ .record r := fun e => by
      subst e
      exact own w mem later
    rw [other ne, same (through (later.through mem))]
    exact mem
  · by_cases ne : u = .record r
    · subst ne
      rw [Heap.children, fields_insert, if_pos ⟨rfl, held.grows beyond.grows⟩] at mem
      rcases Fields.mem_values_insert mem with rfl | mem
      · exact written
      · rw [beyond.fields r ⟨⟨held, Or.inl rfl⟩, out⟩] at mem
        exact own w mem
    · rw [other ne] at mem
      by_cases reach : h.Reachable [u] (.record o)
      · rw [same reach] at mem
        exact fun later => none (later.through mem)
      · exact fun later => apart.inside (fun z e => e ▸ reach) mem _ rfl (through later)

/-! ### What getting shows -/

/-- What is seen of what a run gives. -/
def seen (run : Except Fault Value × State) : Except Fault (Option TypeId × Value) :=
  run.1.map run.2.heap.sight

end Engine

/-- What getting a property shows where a value stands in the field, given what is seen of the model
that is found from it, if there is one, and its text. -/
def Schema.shown (s : Schema) (p : Property) (v : Value) (found : Option (Option TypeId × Value))
    (text : String) : Except Fault (Option TypeId × Value) :=
  if v.isNothing || !s.wraps p.type || s.readsRaw p.type then .ok (none, v)
  else
    match p.type with
    | .model t =>
      if v.isArray then .error (.error .wrappedArray)
      else if (s.type t).isStructured && !v.isRecord then .error (.error (.invalidValue none text))
      else
        match found with
        | some sight => .ok sight
        | none =>
          if (s.type t).allowsInstances then .ok (some t, v)
          else .error (.error (.noInstances (s.type t).name))
    | _ => .ok (none, v)

namespace Engine

open Heap

variable {s : Schema} {c : Context} {st st' : State} {t : TypeId} {m i : ModelId} {p q : Property}
  {v w : Value} {r o : RecordId} {h h' : Heap} {x y : Tree} {cells roots : List Value}

theorem seen_freshModel (t : TypeId) (v : Value) (c : Context) (st : State) :
    seen (freshModel t v c st) = .ok (some t, v) := by
  have new := st.heap.index_addModel_lt t v
  have made : (st.heap.addModel t v).2.sight (.model (st.heap.addModel t v).1) = (some t, v) := by
    rw [sight_model, type_addModel, data_addModel]
  cases hv : v.isRecord with
  | false =>
    rw [freshModel_other t hv]
    exact congrArg Except.ok made
  | true =>
    obtain ⟨r, rfl⟩ := Value.exists_of_isRecord hv
    rw [freshModel_record]
    refine congrArg Except.ok ?_
    dsimp only
    split
    · exact ((grows_setWrapper _ _ _).sight_eq new).trans made
    · exact made

/-- A model that stored data are read as is one that was found, or a new one. -/
theorem seen_represent (d : Nat) (rules : (c.schema.type t).RuleFree)
    (wraps : (c.schema.type t).wraps = true) (hn : v.isNothing = false) (raw : v.isModel = false) :
    seen (represent (Engine.perform (d + 2)) t v c st) =
      if v.isArray then .error (.error .wrappedArray)
      else if (c.schema.type t).isStructured && !v.isRecord then
        .error (.error (.invalidValue none (st.heap.text v)))
      else
        match (liveWrapper? c st.heap v).map fun i => st.heap.sight (.model i) with
        | some sight => .ok sight
        | none =>
          if (c.schema.type t).allowsInstances then .ok (some t, v)
          else .error (.error (.noInstances (c.schema.type t).name)) := by
  have standard := (rules.plain wraps).wrap
  let st₁ : State := { st with options := .throwing }
  have wrapped : seen (apart (Engine.perform (d + 2) (.wrap (.model t) v)) c st) =
      seen (wrapData (Engine.perform (d + 1)) t v c st₁) := by
    have run := wrapUnder_run (Engine.perform (d + 1)) c st₁ rules.wrap rules.coerce raw
    rw [hn, if_neg Bool.false_ne_true] at run
    rw [← run]
    rfl
  cases ha : v.isArray with
  | true =>
    unfold represent
    rw [bind_run]
    dsimp only [schema]
    rw [if_pos (by simp [ha]), wrapped, wrapData_array _ c st₁ standard ha]
    rfl
  | false =>
    rw [if_neg Bool.false_ne_true]
    by_cases shape : ((c.schema.type t).isStructured && !v.isRecord) = true
    · obtain ⟨structured, other⟩ := Bool.and_eq_true_iff.1 shape
      rw [if_pos shape, represent_other _ c st structured (by simpa using other), wrapped,
        wrapData_invalid _ c st₁ standard ha shape]
      rfl
    · rw [if_neg shape]
      have shape : (c.schema.type t).isStructured = true → v.isRecord = true := fun hstr => by
        simpa [hstr] using shape
      rw [represent_run _ c st standard hn ha raw shape]
      cases allowed : (c.schema.type t).allowsInstances with
      | true =>
        rw [if_pos rfl]
        cases liveWrapper? c st.heap v with
        | some i => rfl
        | none => exact seen_freshModel t v c st
      | false =>
        rw [if_neg Bool.false_ne_true, wrapped, wrapData_run _ c st₁ standard ha shape]
        cases liveWrapper? c st.heap v with
        | some i => rfl
        | none =>
          dsimp only
          rw [bind_run, create_barred d (some v) allowed]
          rfl

/-- What getting a property shows is a matter of what stands in the field. -/
theorem get_seen {name : String} (free : c.schema.FreeProperty p)
    (declared : (c.schema.type (st.heap.type m)).property? name = some p)
    (raw : (fieldOf st.heap m p).isModel = false) :
    seen (get m name c st) = c.schema.shown p (fieldOf st.heap m p)
      ((liveWrapper? { c with held := [.model m] ++ c.held } st.heap (fieldOf st.heap m p)).map
        fun i => st.heap.sight (.model i))
      (st.heap.text (fieldOf st.heap m p)) := by
  obtain ⟨d, hd⟩ : ∃ d, c.schema.budget p.weight = d + 3 :=
    ⟨c.schema.budget p.weight - 3, by unfold Schema.budget; omega⟩
  have run : get m name c st = readProperty (Engine.perform (d + 2)) m p c st := by
    rw [get_declared declared]
    change Engine.perform (c.schema.budget p.weight) (.get m p) c st = _
    rw [hd]
    rfl
  have same : seen (.ok (fieldOf st.heap m p), st) = .ok (none, fieldOf st.heap m p) :=
    congrArg Except.ok (sight_of_raw _ raw)
  rw [run]
  unfold Schema.shown
  rcases type : p.type with b | t | a
  · rw [readProperty_builtin _ c st m free.getter type, if_pos (by simp [Schema.wraps])]
    exact same
  · rw [readProperty_model _ c st m free.getter type, type]
    generalize fieldOf st.heap m p = v at raw same
    by_cases still : (v.isNothing || !c.schema.wraps (.model t)) = true
    · rw [if_pos still, if_pos (Bool.or_eq_true_iff.2 (Or.inl still))]
      exact same
    · rw [if_neg still, Bool.eq_false_iff.2 still, Bool.false_or]
      split
      · have unwrapped : st.heap.unwrap v = v := by
          cases v <;> first | rfl | cases raw
        rw [unwrapped]
        exact same
      · simp only [Bool.or_eq_true, Bool.not_eq_true', not_or, Bool.not_eq_false] at still
        exact seen_represent (c := { c with held := [.model m] ++ c.held }) d
          (free.slot.model type).ruleFree still.2 (Bool.eq_false_iff.2 still.1) raw
  · have adapted : c.schema.Free (.adapter a) := free.slot _ (type ▸ List.mem_cons_self)
    cases adapted

/-- It stays the same while the field, its text and the model that is found from it do. -/
theorem seen_get_congr {name : String} (free : c.schema.FreeProperty p)
    (declared : (c.schema.type (st.heap.type m)).property? name = some p)
    (there : st.heap.Holds (.model m)) (tied : st.heap.Tied c.schema)
    (grows : st.heap.Grows st'.heap) (raw : (fieldOf st.heap m p).isModel = false)
    (field : fieldOf st'.heap m p = fieldOf st.heap m p)
    (text : st'.heap.text (fieldOf st.heap m p) = st.heap.text (fieldOf st.heap m p))
    (live : liveWrapper? { c with held := [.model m] ++ c.held } st'.heap (fieldOf st.heap m p) =
      liveWrapper? { c with held := [.model m] ++ c.held } st.heap (fieldOf st.heap m p)) :
    seen (get m name c st') = seen (get m name c st) := by
  have declared' : (c.schema.type (st'.heap.type m)).property? name = some p := by
    rw [grows.type_eq there]
    exact declared
  rw [get_seen free declared' (field ▸ raw), get_seen free declared raw, field, text, live]
  refine congrArg (fun found => c.schema.shown p _ found _) (Option.map_congr fun i live => ?_)
  obtain ⟨o, -, attached⟩ := attached?_of_liveWrapper? live
  exact grows.sight_eq (tied o i attached).1

/-! ### What setting leaves behind -/

theorem prepared_record_type (init : s.initRules t = []) (hc : c.schema = s)
    (embeds : s.Embeds p t) (there : st.heap.Holds (.record o))
    (free : st.heap.attached? o = none) {d : Nat}
    (run : prepared (Engine.perform (d + 1)) p (.record o) c st = (.ok w, st')) :
    ∃ i, st'.heap.attached? o = some i ∧ st'.heap.type i = t := by
  subst hc
  have adapted : concerning p (adapt (Engine.perform (d + 1)) p (.record o)) c st =
      (.ok (.record o), st) := by
    have coerced : ∀ st,
        adapt (Engine.perform (d + 1)) p (.record o) c st = (.ok (.record o), st) := by
      intro st
      rw [adapt_run _ c st (fun _ h => by cases h), embeds.type]
      exact coerceUnder_run _ c st embeds.plain.coerce _
    unfold concerning
    rw [coerced]
  have live : liveWrapper? { c with held := .record o :: c.held } st.heap (.record o) = none :=
    liveWrapper?_eq_none fun r hr => by
      cases hr
      exact free
  rw [prepared_record d embeds adapted, live] at run
  obtain ⟨i, st₁, created, last⟩ := bind_ok run
  cases last
  obtain ⟨st₂, made, heap⟩ := concerning_ok created
  rw [heap]
  refine ⟨i, ?_, create_type made⟩
  cases d with
  | zero => cases made
  | succ d =>
    exact construct_attached (c := { c with held := .record o :: c.held })
      (fun _ hr => absurd (init ▸ hr) List.not_mem_nil) rfl embeds.structured (by exact there) made

/-- A fresh tree is ready to be written into a field: it has been prepared between the heaps. -/
structure Ready (s : Schema) (p : Property) (cells : List Value) (v w : Value) (y : Tree)
    (h h' : Heap) : Prop where
  /-- What is to be stored is the stored form of the tree. -/
  settled : ∃ x, Settled s (fun _ => False) cells p.slot v x w y h'
  /-- It can be read. -/
  serves : y.Serves s p.slot
  /-- Nothing beyond the tree has changed. -/
  framed : ∀ {K : Value → Prop}, h.Houses K → h.Misses K v → Framed s K h h'
  /-- A record has a model of the declared type now. -/
  attached : ∀ {t o}, s.Embeds p t → v = .record o →
    ∃ i, h'.attached? o = some i ∧ h'.type i = t

/-- Setting a property writes what is ready then, which is the stored form of the tree. -/
theorem set_ready (hs : s.Stratified) (free : s.FreeProperty p) (hc : c.schema = s)
    (reached : st.heap.Reached s) (hv : st.heap.Holds v) (trees : st.heap.Trees [v] cells)
    (nodup : cells.Nodup)
    (held : ∀ u ∈ cells, st.heap.Holds u) (run : setProperty m p v c st = (.ok (), st')) :
    ∃ w y h', Ready s p cells v w y st.heap h' ∧
      st'.heap = (h'.record? m).elim h' (fun r => h'.insert r p.storageKey w) ∧
      (storedForm p v c st).1 = .ok w ∧
      (storedForm p v c st).2.heap.Shows (· ∈ cells) [w] [y] := by
  subst hc
  obtain ⟨d, hd, written⟩ := setProperty_wrote free.setter m v c st
  have deep : c.schema.Fathoms (d + 1) p := Schema.fathoms_of_budget (by omega)
  obtain ⟨xs, o⟩ := Offered.of_trees c.schema trees nodup held [some p.slot] rfl
  obtain ⟨x, rfl⟩ := List.length_eq_one_iff.1 o.shows.length_eq.symm
  have alone : storedForm p v c st = stored (Engine.perform (d + 2)) p v c st := by
    rw [← hd]
    rfl
  have first := prepared_ends (c := { c with held := [.model m] ++ c.held }) hs free rfl deep o
  have second := stored_ends (d := d + 2) hs free rfl (Nat.le_succ_of_le deep) o
  have framed {K : Value → Prop} (houses : st.heap.Houses K) (misses : st.heap.Misses K v) :=
    prepared_framed (c := { c with held := [.model m] ++ c.held }) rfl free.slot
      reached.closed reached.tied hv (d + 1) houses misses
  rw [written] at run
  rw [alone]
  rcases mid : prepared (Engine.perform (d + 1)) p v { c with held := [.model m] ++ c.held } st with
    ⟨fault | w, st₁⟩
  · rw [mid] at run
    cases run
  · rw [mid] at run first framed
    obtain ⟨y, outcome, settled⟩ := first.of_ok rfl
    obtain ⟨w', ok, settled'⟩ := second.ok_of_outcome outcome
    obtain rfl := settled.value_eq settled'
    refine ⟨w, y, st₁.heap, ⟨⟨x, settled⟩, Tree.stored_serves (Verdict.result_of_outcome outcome),
      framed, fun embeds e => ?_⟩, ?_, ok, ?_⟩
    · subst e
      refine prepared_record_type (c := { c with held := [.model m] ++ c.held })
        (free.slot.model embeds.type).initRules rfl embeds ?_ ?_ mid
      · cases o.shows with
        | leaf plain => cases plain
        | record mem => exact held _ (mem.resolve_left id)
      · exact o.unattached
    · cases run
      rfl
    · exact settled'.shows_stored.mono fun u hu => hu.elim False.elim id

/-! ### Getting what was set -/

section Shown

variable {found : Option (Option TypeId × Value)} {text : String}

theorem shown_of_nothing (nothing : v.isNothing = true) : s.shown p v found text = .ok (none, v) :=
  if_pos (by rw [nothing, Bool.true_or, Bool.true_or])

theorem shown_of_unwrapped (unwrapped : s.wraps p.type = false) :
    s.shown p v found text = .ok (none, v) :=
  if_pos (by rw [unwrapped, Bool.not_false, Bool.or_true, Bool.true_or])

theorem shown_of_record (type : p.type = .model t) (wraps : (s.type t).wraps = true)
    (allowed : (s.type t).allowsInstances = true)
    (around : ∀ sight, found = some sight → sight = (some t, .record o)) :
    s.shown p (.record o) found text =
      .ok (if (s.type t).readsRaw then none else some t, .record o) := by
  unfold Schema.shown
  rw [type, show s.wraps (.model t) = true from wraps,
    show s.readsRaw (.model t) = (s.type t).readsRaw from rfl]
  cases (s.type t).readsRaw with
  | true => rfl
  | false =>
    have shape : ((s.type t).isStructured && !(Value.record o).isRecord) = false := Bool.and_false _
    rw [if_neg (by exact Bool.false_ne_true)]
    dsimp only
    rw [if_neg (by exact Bool.false_ne_true), shape, if_neg Bool.false_ne_true]
    cases found with
    | none => exact if_pos allowed
    | some sight => exact congrArg Except.ok (around sight rfl)

end Shown

/-- What is seen of a value that was set and stored in the field of the property: the stored value,
and of a record the model of the declared type around it, unless the type is read raw. -/
def ReadsBack (s : Schema) (p : Property) (v w : Value)
    (sight : Except Fault (Option TypeId × Value)) : Prop :=
  match p.type with
  | .model t =>
    if w.isNothing then sight = .ok (none, w)
    else w = v ∧ v.isRecord = true ∧ sight = .ok (if (s.type t).readsRaw then none else some t, v)
  | _ => sight = .ok (none, w)

section Stocked

variable {fields : Entries} {other : String}

namespace Ready

theorem beyond (ready : Ready s p cells v w y h h') : Framed s (Beyond h v) h h' :=
  ready.framed (beyond_houses h v) (beyond_misses h v)

/-- A value with parts is stored as it is. -/
theorem stored (ready : Ready s p cells v w y h h') : w.isScalar = true ∨ w = v := by
  obtain ⟨x, settled⟩ := ready.settled
  cases leaf : y.isLeaf with
  | true => exact Or.inl (settled.leaf leaf).2
  | false => exact Or.inr (settled.same leaf)

theorem shows (ready : Ready s p cells v w y h h') : h'.Shows (· ∈ cells) [w] [y] := by
  obtain ⟨x, settled⟩ := ready.settled
  exact settled.shows_stored.mono fun u hu => hu.elim False.elim id

/-- A model that is found from the record that was set is one of the declared type around it. -/
theorem sight_of_found (ready : Ready s p cells (.record o) w y h h') (embeds : s.Embeds p t)
    (found : liveWrapper? c (h'.insert r p.storageKey w) (.record o) = some i) :
    (h'.insert r p.storageKey w).sight (.model i) = (some t, .record o) := by
  obtain ⟨o', e, attached⟩ := attached?_of_liveWrapper? found
  cases e
  rw [Heap.attached?_insert] at attached
  obtain ⟨i', attached', type⟩ := ready.attached embeds rfl
  cases attached.symm.trans attached'
  rw [sight_model, ← type]
  exact congrArg (Prod.mk _) (ready.beyond.tied o i attached).2.1

theorem readsBack (ready : Ready s p cells v w y h h') (free : s.FreeProperty p)
    (uses : ∀ u, p.type = .model u → (s.type u).wraps = true ∧ (s.type u).isStructured = true)
    (hc : c.schema = s) (heap : st.heap = h'.insert r p.storageKey w) {key : String}
    (declared : (s.type (st.heap.type m)).property? key = some p)
    (field : fieldOf st.heap m p = w) :
    ReadsBack s p v w (seen (get m key c st)) := by
  subst hc
  rw [get_seen free declared (field ▸ ready.shows.not_model), field]
  unfold ReadsBack
  rcases type : p.type with b | u | a
  · exact shown_of_unwrapped (by rw [type]; rfl) ..
  · obtain ⟨wraps, structured⟩ := uses u type
    dsimp only
    cases nothing : w.isNothing with
    | true => exact shown_of_nothing nothing ..
    | false =>
      obtain ⟨allowed, -, record⟩ := (ready.serves u type wraps).resolve_left (by
        rw [ready.shows.isNothing_eq, nothing]
        exact Bool.false_ne_true)
      replace record : w.isRecord = true := ready.shows.isRecord_eq ▸ record structured
      obtain rfl : w = v := ready.stored.resolve_left fun plain => by
        cases w <;> first | cases plain; done | cases record
      obtain ⟨o, rfl⟩ := Value.exists_of_isRecord record
      refine ⟨rfl, rfl, shown_of_record type wraps allowed fun sight found => ?_⟩
      obtain ⟨i, live, rfl⟩ := Option.map_eq_some_iff.1 found
      rw [heap] at live ⊢
      exact ready.sight_of_found ⟨free.getter, free.setter, type,
        (free.slot.model type).ruleFree.plain wraps, structured⟩ live
  · have adapted : c.schema.Free (.adapter a) := free.slot _ (type ▸ List.mem_cons_self)
    cases adapted

end Ready

/-! ### Getting what was not set -/

/-- Another property keeps its value, and what is got for it. -/
structure Untouched (s : Schema) (m : ModelId) (q : Property) (key : String) (st st' : State) :
    Prop where
  /-- The same value is in the field. -/
  field : fieldOf st'.heap m q = fieldOf st.heap m q
  /-- It shows the same tree. -/
  tree : st.heap.SameTree st'.heap (fun _ => True) (fieldOf st.heap m q)
  /-- Getting it shows the same, whatever is in use. -/
  seen : ∀ c : Context, c.schema = s → (∀ w ∈ c.held, st.heap.Holds w) →
    seen (get m key c st') = seen (get m key c st)
  /-- It can be got, unless its storage key is one that data are not checked under. -/
  got : isReserved q.storageKey = false →
    ∀ c : Context, c.schema = s → ∃ found, (get m key c st').1 = .ok found

theorem shown_ok (free : s.FreeSlot p.slot) (sh : h.Shows (fun _ => True) [v] [y])
    (serves : y.Serves s p.slot) (found : Option (Option TypeId × Value)) (text : String) :
    ∃ sight, s.shown p v found text = .ok sight := by
  rcases type : p.type with b | u | a
  · exact ⟨_, shown_of_unwrapped (by rw [type]; rfl)⟩
  · unfold Schema.shown
    rw [type]
    by_cases still : (v.isNothing || !s.wraps (.model u) || s.readsRaw (.model u)) = true
    · exact ⟨_, if_pos still⟩
    · rw [if_neg still]
      simp only [Bool.or_eq_true, Bool.not_eq_true', not_or, Bool.not_eq_false,
        Bool.not_eq_true] at still
      obtain ⟨allowed, array, record⟩ := (serves u type still.1.2).resolve_left (by
        rw [sh.isNothing_eq, still.1.1]
        exact Bool.false_ne_true)
      rw [sh.isArray_eq] at array
      rw [sh.isRecord_eq] at record
      dsimp only
      rw [array, if_neg Bool.false_ne_true, if_neg fun h => by
        obtain ⟨structured, other⟩ := Bool.and_eq_true_iff.1 h
        rw [record structured] at other
        cases other]
      cases found with
      | some sight => exact ⟨sight, rfl⟩
      | none => exact ⟨_, if_pos allowed⟩
  · exact nomatch free (.adapter a) (type ▸ List.mem_cons_self)

/-- The models of the other trees are found as before. -/
theorem Ready.liveWrapper?_eq (ready : Ready s p cells v w y h h') (a : Stocked s t m r fields h)
    (fresh : h.FreshFor m v cells) (reached : h.Reached s)
    (closed : (h'.insert r p.storageKey w).Closed) (hc : c.schema = s)
    (there : ∀ w ∈ c.held ++ s.heldValues, h.Holds w) {z : Value}
    (sh : h.Shows (fun u => Beside h r u ∧ u ∉ cells) [z] [x]) :
    liveWrapper? c (h'.insert r p.storageKey w) z = liveWrapper? c h z := by
  cases z with
  | record o =>
    obtain ⟨held, out⟩ : h.Holds (.record o) ∧ .record o ∉ cells := by
      cases sh with
      | leaf plain => cases plain
      | record mem => exact ⟨mem.1.1, mem.2⟩
    obtain ⟨x, tree⟩ := fresh.trees.shows_one
    obtain ⟨own, beside⟩ := a.apart fresh.apart
    have avoids : h.Avoids o v := tree.avoids out
    have houses : h.Houses (· = .record o) := fun _ e => e ▸ ⟨held, Or.inl rfl⟩
    have roots : ∀ u ∈ .record o :: c.held ++ c.schema.heldValues, h.Holds u := fun u hu =>
      (List.mem_cons.1 hu).elim (fun e => e ▸ held) fun hu => there u (hc ▸ hu)
    refine wrapper?_congr reached.closed.closedOn roots closed.closedOn
      (fun u hu => (roots u hu).grows (ready.beyond.grows.trans (grows_insert ..))) ?_ fun i hi => ?_
    · rw [attached?_insert]
      exact ready.beyond.attached o ⟨⟨held, Or.inl rfl⟩, avoids⟩
    · exact reachable_model_iff ready.beyond (ready.framed houses avoids.misses) held
        (reached.tied o i hi).2.1 avoids a.held (tree.avoids own) beside ready.stored _
  | _ => rfl

theorem Ready.keeps (ready : Ready s p cells v w y h h') (a : Stocked s t m r fields h)
    (fresh : h.FreshFor m v cells) (ne : q.storageKey ≠ p.storageKey) :
    fieldOf (h'.insert r p.storageKey w) m q = fieldOf h m q ∧
      h.Shows (fun u => Beside h r u ∧ u ∉ cells) [fieldOf h m q] [fields.get q.storageKey] ∧
      (h'.insert r p.storageKey w).Shows (Beside h r) [fieldOf h m q] [fields.get q.storageKey] := by
  have grows := ready.beyond.grows
  obtain ⟨x, tree⟩ := fresh.trees.shows_one
  obtain ⟨out, beside⟩ := a.apart fresh.apart
  have sh := beside.get a.keys q.storageKey
  rw [fieldOf_of_data a.data]
  refine ⟨?_, sh, ?_⟩
  · have data : (h'.insert r p.storageKey w).data m = .record r :=
      (grows.data_eq a.model).trans a.data
    rw [fieldOf_of_data data, fields_insert, if_pos ⟨rfl, a.held.grows grows⟩, Fields.get_insert,
      if_neg ne, ready.beyond.fields r ⟨⟨a.held, Or.inl rfl⟩, tree.avoids out⟩]
  · have write : h'.ChangesOnly (h'.insert r p.storageKey w) [.record r] :=
      h'.changesOnly_insert List.mem_cons_self _ _
    have mid := sh.of_changesOnly (changesOnly_of_framed ready.beyond tree) fun u hu => ⟨hu.1.1, hu.2⟩
    refine (mid.of_changesOnly write fun u hu => ⟨hu.1.1.grows grows, fun mem => ?_⟩).mono
      fun u hu => hu.1
    exact hu.1.2 (List.mem_singleton.1 mem)

theorem Ready.untouched (ready : Ready s p cells v w y st.heap h')
    (a : Stocked s t m r fields st.heap) (fresh : st.heap.FreshFor m v cells)
    (reached : st.heap.Reached s) (reached' : st'.heap.Reached s)
    (heap : st'.heap = h'.insert r p.storageKey w) (there : ∀ w ∈ s.heldValues, st.heap.Holds w)
    (free : s.FreeProperty q) {key : String} (declared : (s.type t).property? key = some q)
    (own : (s.type t).property? q.storageKey = some q) (ne : q.storageKey ≠ p.storageKey) :
    Untouched s m q key st st' := by
  have grows : st.heap.Grows st'.heap := heap ▸ ready.beyond.grows.trans (grows_insert ..)
  obtain ⟨field, sh, sh'⟩ := ready.keeps a fresh ne
  rw [← heap] at field sh'
  have declared' : (s.type (st'.heap.type m)).property? key = some q := by
    rw [(grows.type_eq a.model).trans a.type]
    exact declared
  have raw := sh.not_model
  have text : st'.heap.text (fieldOf st.heap m q) = st.heap.text (fieldOf st.heap m q) :=
    (sh'.text_eq fun u hu => hu.1.grows grows).trans (sh.text_eq fun u hu => hu.1.1).symm
  refine ⟨field, ⟨_, sh.mono fun _ _ => trivial, sh'.mono fun _ _ => trivial⟩, fun c hc held => ?_,
    fun unreserved c hc => ?_⟩
  · subst hc
    have there' : ∀ u ∈ ([.model m] ++ c.held) ++ c.schema.heldValues, st.heap.Holds u := by
      intro u hu
      rcases List.mem_append.1 hu with hu | hu
      · rcases List.mem_cons.1 hu with rfl | hu
        · exact a.model
        · exact held u hu
      · exact there u hu
    have same := ready.liveWrapper?_eq (c := { c with held := [.model m] ++ c.held }) a fresh reached
      (heap ▸ reached'.closed) rfl there' sh
    exact seen_get_congr free (a.type ▸ declared) a.model reached.tied grows raw field text
      (by rw [heap, same])
  · subst hc
    have serves := a.serves q (ModelType.through?_eq_some.2 ⟨unreserved, own⟩)
    obtain ⟨sight, shown⟩ := shown_ok free.slot (sh'.mono fun _ _ => trivial) serves
      ((liveWrapper? { c with held := [.model m] ++ c.held } st'.heap (fieldOf st'.heap m q)).map
        fun i => st'.heap.sight (.model i)) (st'.heap.text (fieldOf st'.heap m q))
    have seen := get_seen free declared' (field ▸ raw)
    rw [field] at seen shown
    rw [shown] at seen
    unfold Engine.seen at seen
    cases result : (get m key c st').1 with
    | error fault => rw [result] at seen; cases seen
    | ok found => exact ⟨found, rfl⟩

end Stocked

/-! ### The pair -/

/-- **Setting and getting form a lawful pair.**  Let a model be made of fresh plain trees, of a type
that is free of hooks and whose storage keys belong to one property each.  Let a fresh plain tree be
set for a property of it, not one of a type that wraps nothing or has no properties, with any
options.

What is written under the storage key of the property is its stored form, which is what comes of the
value when nothing is written, and there is no such key if that is undefined.  Getting the property,
by any of its keys, gives back the stored value, or the model of the declared type around the record
that was set.  All other properties keep their values, and getting them shows what it showed, which
is no error unless the storage key is a reserved one (`Engine.spare_not_got`). -/
theorem set_get_lawful (hs : s.Stratified) (free : s.Free (.model t))
    (keyed : (s.type t).WellKeyed) (hc : c.schema = s) (reached : st.heap.Reached s)
    (there : ∀ u ∈ c.held ++ s.heldValues, st.heap.Holds u) (planted : Planted s t m st.heap)
    (fresh : st.heap.FreshFor m v cells) {name : String}
    (declared : (s.type t).property? name = some p)
    (uses : ∀ u, p.type = .model u → (s.type u).wraps = true ∧ (s.type u).isStructured = true)
    (run : set m name v c st = (.ok (), st')) :
    ∃ w, (storedForm p v c st).1 = .ok w ∧
      (storedForm p v c st).2.heap.SameTree st'.heap (· ∈ cells) w ∧
      fieldOf st'.heap m p = w ∧
      (∃ r, st'.heap.data m = .record r ∧
        (p.storageKey ∈ (st'.heap.fields r).keys ↔ w ≠ .undefined)) ∧
      (∀ key c₂, (s.type t).property? key = some p → c₂.schema = s →
        ReadsBack s p v w (seen (get m key c₂ st'))) ∧
      ∀ key q, (s.type t).property? key = some q → q ≠ p → Untouched s m q key st st' := by
  subst hc
  have placed := hs.placedAt t
  obtain ⟨r, fields, a⟩ :=
    planted.stocked hs free keyed (ModelType.isStructured_of_property? declared)
  have freeProp {key : String} {q : Property} (hq : (c.schema.type t).property? key = some q) :
      c.schema.FreeProperty q := free.property hs hq
  obtain ⟨x, tree⟩ := fresh.trees.shows_one
  obtain ⟨own, -⟩ := a.apart fresh.apart
  rw [set_declared (a.type ▸ declared)] at run
  have given : ∀ u ∈ [.model m, v] ++ (c.held ++ c.schema.heldValues), st.heap.Holds u := by
    intro u hu
    rcases List.mem_append.1 hu with hu | hu
    · rcases List.mem_pair.1 hu with rfl | rfl
      · exact a.model
      · exact tree.holds fresh.held
    · exact there u hu
  have reached' : st'.heap.Reached c.schema := by
    have all := reached.setProperty (freeProp declared).getter (freeProp declared).setter rfl given
    rwa [run] at all
  obtain ⟨w, y, h', ready, heap, alone, shows⟩ := set_ready hs (freeProp declared) rfl
    reached (tree.holds fresh.held) fresh.trees fresh.nodup fresh.held run
  have data' : h'.data m = .record r := (ready.beyond.grows.data_eq a.model).trans a.data
  have record := h'.record?_of_data data'
  rw [record, Option.elim_some] at heap
  have held : h'.Holds (.record r) := a.held.grows ready.beyond.grows
  have field : fieldOf st'.heap m p = w := heap ▸ fieldOf_insert held record w
  have data : st'.heap.data m = .record r := heap ▸ data'
  have type : st'.heap.type m = t := by
    rw [heap]
    exact (ready.beyond.grows.type_eq a.model).trans a.type
  refine ⟨w, alone, ⟨y, shows, ?_⟩, field, ⟨r, data, ?_⟩, fun key c₂ found hc₂ => ?_,
    fun key q found ne => ?_⟩
  · have write : h'.ChangesOnly (h'.insert r p.storageKey w) [.record r] :=
      h'.changesOnly_insert List.mem_cons_self _ _
    rw [heap]
    refine ready.shows.of_changesOnly write fun u hu => ⟨?_, fun mem => ?_⟩
    · exact (fresh.held u hu).grows ready.beyond.grows
    · exact own (List.mem_singleton.1 mem ▸ hu)
  · rw [Fields.mem_keys_iff, ← fieldOf_of_data data, field]
  · exact ready.readsBack (freeProp declared) uses hc₂ heap (type.symm ▸ found) field
  · refine ready.untouched a fresh reached reached' heap
      (fun u hu => there u (List.mem_append_right _ hu)) (freeProp found) found
      (keyed.found_by_storageKey placed found) fun e => ne ?_
    exact keyed.eq_of_storageKey placed found declared e

/-! ### A book gets a title page -/

/-- What a book is made of, and a page that is not in it. -/
def manuscript : Heap :=
  let h := (Heap.empty.recordOf [("n", .string "5")]).2
  let h := (h.addArray [.record ⟨0⟩]).2
  let h := (h.recordOf [("pages", .array ⟨0⟩)]).2
  (h.recordOf [("n", .string "7")]).2

theorem manuscript_reached : manuscript.Reached bookSchema := by
  refine ((((Relation.ReflTransGen.refl).tail (.addRecord ?_)).tail (.addArray ?_)).tail
    (.addRecord ?_)).tail (.addRecord ?_)
  all_goals decide +kernel

/-- Makes the book. -/
def makeBook : Except Fault ModelId × State :=
  create ⟨3⟩ (some (.record ⟨1⟩)) ⟨bookSchema, [.record ⟨1⟩, .record ⟨2⟩]⟩ ⟨manuscript, .throwing, []⟩

/-- The book and the page are in use. -/
def atPress : Context := ⟨bookSchema, [.model ⟨0⟩, .record ⟨2⟩]⟩

/-- Makes the page the title page. -/
def titleBook : Except Fault Unit × State := set ⟨0⟩ "title" (.record ⟨2⟩) atPress makeBook.2

theorem makeBook_planted : Planted bookSchema ⟨3⟩ ⟨0⟩ makeBook.2.heap := by
  have page : manuscript.Trees (manuscript.fields ⟨0⟩).values [] :=
    show manuscript.Trees [.string "5"] [] from .scalar rfl .nil
  have pages : manuscript.Trees (manuscript.items ⟨0⟩) [.record ⟨0⟩] :=
    show manuscript.Trees [.record ⟨0⟩] _ from .record rfl page .nil
  have book : manuscript.Trees (manuscript.fields ⟨1⟩).values [.array ⟨0⟩, .record ⟨0⟩] :=
    show manuscript.Trees [.array ⟨0⟩] _ from .array pages .nil
  let c : Context := ⟨bookSchema, [.record ⟨1⟩, .record ⟨2⟩]⟩
  let st : State := ⟨manuscript, .throwing, []⟩
  have trees : st.heap.Trees [(some (Value.record ⟨1⟩)).getD .undefined]
      [.record ⟨1⟩, .array ⟨0⟩, .record ⟨0⟩] := .record rfl book .nil
  have made : create ⟨3⟩ (some (.record ⟨1⟩)) c st = (.ok ⟨0⟩, makeBook.2) :=
    Prod.fst_eq_iff.1 (by decide +kernel)
  exact .create rfl rfl trees (by decide) (by decide +kernel) made

theorem makeBook_freshFor : makeBook.2.heap.FreshFor ⟨0⟩ (.record ⟨2⟩) [.record ⟨2⟩] := by
  have page : makeBook.2.heap.Trees (makeBook.2.heap.fields ⟨2⟩).values [] := by
    have values : (makeBook.2.heap.fields ⟨2⟩).values = [.string "7"] := by decide +kernel
    exact values ▸ .scalar rfl .nil
  -- these are all the cells of the book
  have closed : makeBook.2.heap.ClosedOn
      (· ∈ [.model ⟨0⟩, .record ⟨1⟩, .array ⟨0⟩, .record ⟨0⟩, .number (.ofInt 5)]) := by
    unfold Heap.ClosedOn
    decide +kernel
  refine ⟨.record (by decide +kernel) page .nil, by decide, by decide +kernel, fun u hu reach => ?_⟩
  obtain rfl := List.mem_singleton.1 hu
  exact absurd (reach.holds closed (by decide)) (by decide)

/-- The title page is got as a page, and the other pages are got as before. -/
theorem set_get_lawful_book : titleBook.1 = .ok () ∧
    fieldOf titleBook.2.heap ⟨0⟩ titlePage = .record ⟨2⟩ ∧
    (∀ c, c.schema = bookSchema →
      seen (get ⟨0⟩ "title" c titleBook.2) = .ok (some ⟨1⟩, .record ⟨2⟩)) ∧
    Untouched bookSchema ⟨0⟩ otherPages "pages" makeBook.2 titleBook.2 := by
  have there : ∀ u ∈ atPress.held ++ bookSchema.heldValues, makeBook.2.heap.Holds u := by
    decide +kernel
  have reached : makeBook.2.heap.Reached bookSchema := by
    unfold makeBook
    exact Heap.Reached.create manuscript_reached _ _ rfl (by decide +kernel)
  have run : titleBook = (.ok (), titleBook.2) := Prod.fst_eq_iff.1 (by decide +kernel)
  have keyed : (bookSchema.type ⟨3⟩).WellKeyed :=
    ModelType.wellKeyed_of_listed (by decide +kernel)
  obtain ⟨w, -, -, field, -, reads, others⟩ := set_get_lawful (p := titlePage)
    bookSchema_built.stratified (bookSchema_built.free bookSchema_ruleFree ⟨3⟩) keyed
    (rfl : atPress.schema = bookSchema) reached there makeBook_planted
    makeBook_freshFor (by decide +kernel) (fun u e => by cases e; decide +kernel) run
  have stored : fieldOf titleBook.2.heap ⟨0⟩ titlePage = .record ⟨2⟩ := by decide +kernel
  obtain rfl : w = .record ⟨2⟩ := field.symm.trans stored
  refine ⟨congrArg Prod.fst run, stored, fun c hc => ?_,
    others "pages" otherPages (by decide +kernel) (by decide)⟩
  exact (reads "title" c (by decide +kernel) hc).2.2

/-! ### A box gets an item -/

/-- What a box is made of, with a number for its spare item, and an item. -/
def oddments : Heap :=
  let h := (Heap.empty.recordOf [("$spare", .number (.ofInt 5))]).2
  (h.recordOf [("n", .number (.ofInt 7))]).2

/-- Makes the box. -/
def packBox : Except Fault ModelId × State :=
  create ⟨2⟩ (some (.record ⟨0⟩)) ⟨Run.boxSchema, [.record ⟨1⟩]⟩ ⟨oddments, .throwing, []⟩

/-- The box and the item are in use. -/
def packing : Context := ⟨Run.boxSchema, [.model ⟨0⟩, .record ⟨1⟩]⟩

/-- Puts the item into the box. -/
def fillBox : Except Fault Unit × State := set ⟨0⟩ "item" (.record ⟨1⟩) packing packBox.2

/-- Data are not checked under a reserved key, so the spare item of the box is the number, and there
is no getting it, neither before the item is set nor after. -/
theorem spare_not_got :
    Run.boxSchema.Stratified ∧ Run.boxSchema.Free (.model ⟨2⟩) ∧ (Run.boxSchema.type ⟨2⟩).WellKeyed ∧
      packBox.2.heap.Reached Run.boxSchema ∧
      Planted Run.boxSchema ⟨2⟩ ⟨0⟩ packBox.2.heap ∧
      packBox.2.heap.FreshFor ⟨0⟩ (.record ⟨1⟩) [.record ⟨1⟩] ∧ fillBox.1 = .ok () ∧
      ((Run.boxSchema.type ⟨2⟩).property? "spare").map (·.storageKey) = some "$spare" ∧
      fieldOf fillBox.2.heap ⟨0⟩ Run.boxedItem = .record ⟨1⟩ ∧
      (get ⟨0⟩ "spare" packing fillBox.2).1 = .error (.error (.invalidValue none "5")) := by
  have reached : oddments.Reached Run.boxSchema :=
    ((Relation.ReflTransGen.refl).tail (.addRecord (by decide +kernel))).tail
      (.addRecord (by decide +kernel))
  have spare : oddments.Trees (oddments.fields ⟨0⟩).values [] :=
    show oddments.Trees [.number (.ofInt 5)] [] from .scalar rfl .nil
  have trees : oddments.Trees [(some (Value.record ⟨0⟩)).getD .undefined] [.record ⟨0⟩] :=
    .record rfl spare .nil
  have made : create ⟨2⟩ (some (.record ⟨0⟩)) ⟨Run.boxSchema, [.record ⟨1⟩]⟩
      ⟨oddments, .throwing, []⟩ = (.ok ⟨0⟩, packBox.2) := Prod.fst_eq_iff.1 (by decide +kernel)
  have item : packBox.2.heap.Trees (packBox.2.heap.fields ⟨1⟩).values [] := by
    have values : (packBox.2.heap.fields ⟨1⟩).values = [.number (.ofInt 7)] := by decide +kernel
    exact values ▸ .scalar rfl .nil
  -- these are all the cells of the box
  have closed : packBox.2.heap.ClosedOn
      (· ∈ [.model ⟨0⟩, .record ⟨0⟩, .number (.ofInt 5)]) := by
    unfold Heap.ClosedOn
    decide +kernel
  refine ⟨Run.boxSchema_regular.built.stratified, Run.boxSchema_regular.modelFree ⟨2⟩,
    Run.boxSchema_regular.keyed ⟨2⟩, ?_, .create rfl rfl trees (by decide) (by decide +kernel) made,
    ⟨.record (by decide +kernel) item .nil, by decide, by decide +kernel, fun u hu reach => ?_⟩,
    by decide +kernel, by decide +kernel, by decide +kernel, by decide +kernel⟩
  · exact Heap.Reached.create reached _ _ rfl (by decide +kernel)
  · obtain rfl := List.mem_singleton.1 hu
    exact absurd (reach.holds closed (by decide)) (by decide)

end Engine

end Overlay
