import Overlay.Proofs.Engine.Runs
import Overlay.Proofs.Heap.Typing

/-!
# Runs from typed heaps

A run is typed if, however it ends, the heap it leaves is typed and only cells of certain trees and
new ones were touched.  Coercion to a built-in type is such a run: an array gets the type of its
elements once all of them have been replaced.

* `Engine.Typed.bind` : one run after another;
* `Engine.Replacing` : the invariant of the loop that replaces elements;
* `Engine.coerceBuiltin_typed` : what is coerced to a built-in type is of that type.
-/

namespace Overlay

/-- A model of a type with properties wraps a record of that type. -/
def Typing.Models (W : Typing) (s : Schema) (h : Heap) (m : ModelId) : Prop :=
  h.Holds (.model m) ∧ ((s.type (h.type m)).isStructured = true →
    ∃ r, h.data m = .record r ∧ W.record r = some (.data (h.type m)))

theorem Typing.Models.mono {W W' : Typing} {s : Schema} {h h' : Heap} {m : ModelId}
    (models : W.Models s h m) (e : W.Extends W') (g : h.Grows h') : W'.Models s h' m := by
  refine ⟨models.1.grows g, fun hstr => ?_⟩
  rw [g.type_eq models.1] at hstr ⊢
  obtain ⟨r, data, role⟩ := models.2 hstr
  exact ⟨r, (g.data_eq models.1).trans data, e.record r _ role⟩

namespace Engine

open Typing

/-- From a typed heap, a run stays typed and touches cells of the list and new ones only, however
it ends.  The last predicate holds of its result and the typed heap then. -/
def Typed {α : Type} (s : Schema) (cells : List Value) (W : Typing) (h : Heap)
    (run : Except Fault α × State) (Q : α → Typing → Heap → Prop) : Prop :=
  ∃ W', Advances s cells W h W' run.2.heap ∧ ∀ a, run.1 = .ok a → Q a W' run.2.heap

namespace Typed

variable {α β : Type} {s : Schema} {cells cells' : List Value} {W : Typing} {h : Heap}
  {c : Context} {st : State} {Q Q' : α → Typing → Heap → Prop} {R : β → Typing → Heap → Prop}

theorem same {run : Except Fault α × State} (d : W.Describes s h) (hh : run.2.heap = h)
    (hq : ∀ a, run.1 = .ok a → Q a W h) : Typed s cells W h run Q :=
  ⟨W, by rw [hh]; exact .refl d cells, fun a ha => by rw [hh]; exact hq a ha⟩

theorem pure {a : α} (d : W.Describes s st.heap) (hq : Q a W st.heap) :
    Typed s cells W st.heap ((Pure.pure a : Engine α) c st) Q :=
  .same d rfl fun _ h => by cases h; exact hq

theorem mono {run : Except Fault α × State} (t : Typed s cells W h run Q)
    (sub : ∀ v ∈ cells, v ∈ cells' ∨ ¬ h.Holds v) (hq : ∀ a W h, Q a W h → Q' a W h) :
    Typed s cells' W h run Q' := by
  obtain ⟨W', a, q⟩ := t
  exact ⟨W', a.mono sub, fun x hx => hq x _ _ (q x hx)⟩

theorem imp {run : Except Fault α × State} (t : Typed s cells W h run Q)
    (hq : ∀ a W h, Q a W h → Q' a W h) : Typed s cells W h run Q' :=
  t.mono (fun _ h => Or.inl h) hq

/-- A step that is typed goes before a run that is. -/
theorem after {run : Except Fault α × State} {W' : Typing} {h' : Heap}
    (a : Advances s cells W h W' h') (t : Typed s cells' W' h' run Q)
    (sub : ∀ v ∈ cells', v ∈ cells ∨ ¬ h.Holds v) : Typed s cells W h run Q := by
  obtain ⟨W'', a', q⟩ := t
  exact ⟨W'', a.trans a' sub, q⟩

/-- The first run and the others may touch different cells of the list. -/
theorem bind {cells₁ : List Value} {act : Engine α} {next : α → Engine β}
    (first : Typed s cells₁ W st.heap (act c st) Q) (sub : ∀ v ∈ cells₁, v ∈ cells)
    (rest : ∀ a W' st', Advances s cells₁ W st.heap W' st'.heap → Q a W' st'.heap →
      ∃ cells₂, (∀ v ∈ cells₂, v ∈ cells ∨ ¬ st.heap.Holds v) ∧
        Typed s cells₂ W' st'.heap (next a c st') R) :
    Typed s cells W st.heap ((act >>= next) c st) R := by
  obtain ⟨W', adv, q⟩ := first
  have adv' := adv.mono fun v hv => Or.inl (sub v hv)
  rw [bind_run]
  rcases he : act c st with ⟨fault | x, st'⟩
  · rw [he] at adv'
    exact ⟨W', adv', nofun⟩
  · rw [he] at adv adv' q
    obtain ⟨cells₂, sub₂, t⟩ := rest x W' st' adv (q x rfl)
    exact t.after adv' sub₂

theorem seq {act : Engine α} {next : α → Engine β} (first : Typed s cells W st.heap (act c st) Q)
    (rest : ∀ a W' st', Advances s cells W st.heap W' st'.heap → Q a W' st'.heap →
      Typed s cells W' st'.heap (next a c st') R) :
    Typed s cells W st.heap ((act >>= next) c st) R :=
  first.bind (fun _ h => h) fun a W' st' adv q =>
    ⟨cells, fun _ h => Or.inl h, rest a W' st' adv q⟩

theorem concerning {act : Engine α} {p : Property}
    (t : Typed s cells W st.heap
      (act c { st with options := { st.options with property := some p } }) Q) :
    Typed s cells W st.heap (Engine.concerning p act c st) Q := t

theorem raise (d : W.Describes s st.heap) (e : Error) :
    Typed s cells W st.heap ((Engine.raise e : Engine α) c st) Q :=
  .same d rfl nofun

theorem signal {P : Value → Typing → Heap → Prop} (d : W.Describes s st.heap) (e : Error)
    (hq : P .undefined W st.heap) : Typed s cells W st.heap (Engine.signal e c st) P := by
  unfold Engine.signal
  split
  · refine .same d rfl fun w hw => ?_
    cases hw
    exact hq
  · refine .same d rfl fun w hw => ?_
    cases hw

theorem invalid {P : Value → Typing → Heap → Prop} (d : W.Describes s st.heap) (v : Value)
    (hq : P .undefined W st.heap) : Typed s cells W st.heap (Engine.invalid v c st) P :=
  signal (c := c) d _ hq

end Typed

/-! ### Coercing to built-in types -/

section Coercing

variable {s : Schema} {cells : List Value} {W : Typing} {c : Context} {st : State} {v : Value}

theorem coerceScalar_typed {b : Builtin} (hb : b ≠ .integer) (d : W.Describes s st.heap)
    (hv : v.isModel = false) :
    Typed s cells W st.heap (coerceScalar b v c st) fun w _ _ =>
      w.isNothing = true ∨ (w.isModel = false ∧ b.accepts w = true) := by
  have undefined : Typed s cells W st.heap (Engine.invalid v c st) fun w _ _ =>
      w.isNothing = true ∨ (w.isModel = false ∧ b.accepts w = true) :=
    .invalid d v (Or.inl rfl)
  unfold coerceScalar
  split
  · rename_i h
    refine .pure d ?_
    rcases Bool.or_eq_true_iff.1 h with h | h
    · exact Or.inl h
    · exact Or.inr ⟨hv, h⟩
  · rw [bind_run]
    dsimp only [options]
    split
    · exact undefined
    · rcases hw : b.converted? v with _ | w
      · exact undefined
      · exact .pure d (Or.inr (Builtin.converted?_accepts hb hw))

theorem coerceInteger_typed (d : W.Describes s st.heap) (hv : v.isModel = false) :
    Typed s cells W st.heap (coerceInteger v c st) fun w _ _ =>
      w.isNothing = true ∨ (w.isModel = false ∧ Builtin.integer.accepts w = true) := by
  refine (coerceScalar_typed (b := .number) nofun d hv).seq fun w W' st' a hw => ?_
  split
  · rename_i x
    split
    · rename_i hx
      exact .pure a.describes (Or.inr ⟨rfl, hx⟩)
    · exact .invalid a.describes v (Or.inl rfl)
  · rename_i hn
    refine .pure a.describes (hw.imp_right fun ⟨hm, hx⟩ => ⟨hm, ?_⟩)
    -- a value that numbers accept is a number
    cases w <;> first | exact absurd rfl (hn _) | cases hx

theorem fits_of_accepts {b : Builtin} {ts : List DataType} (hb : b = .array → ts = [])
    (hv : v.isNothing = true ∨ (v.isModel = false ∧ b.accepts v = true)) :
    W.Fits s (.builtin b) ts v := by
  refine hv.imp_right fun h => ?_
  cases b with
  | array =>
    rw [hb rfl]
    exact h
  | _ => exact h

/-- The first elements of an array have been replaced by values of their type, and the others are
still plain trees. -/
structure Replacing (s : Schema) (e : Property) (a : ArrayId) (i count : Nat) (cells : List Value)
    (W : Typing) (h : Heap) : Prop where
  /-- The typed cells hold what their types say. -/
  describes : W.Describes s h
  /-- The array is there. -/
  held : h.Holds (.array a)
  /-- It gets its type only at the end. -/
  untyped : W.array a = none
  /-- It is not part of the other trees. -/
  apart : .array a ∉ cells
  /-- So many elements remain. -/
  length : i + count = (h.items a).length
  /-- The first elements are of their type. -/
  done : ∀ v ∈ (h.items a).take i, W.Fits s e.type e.elements v
  /-- The others are trees. -/
  ready : W.Ready h ((h.items a).drop i) cells

theorem Replacing.of_ready {e : Property} {a : ArrayId} {h : Heap} (d : W.Describes s h)
    (y : W.Ready h [.array a] cells) :
    ∃ inside, cells = .array a :: inside ∧
      Replacing s e a 0 (h.items a).length inside W h := by
  obtain ⟨inside, rfl, hn, y'⟩ := y.of_array
  refine ⟨inside, rfl, d, y.held _ List.mem_cons_self, y.untyped.array a List.mem_cons_self, hn,
    Nat.zero_add _, fun v hv => ?_, by rw [List.drop_zero]; exact y'⟩
  rw [List.take_zero] at hv
  exact absurd hv List.not_mem_nil

theorem Replacing.step {e : Property} {a : ArrayId} {i count : Nat} {cells₁ cells₂ : List Value}
    {W' : Typing} {h h' : Heap} {w : Value}
    (y : Replacing s e a i (count + 1) (cells₁ ++ cells₂) W h)
    (rest : W.Ready h ((h.items a).drop (i + 1)) cells₂) (hd : ∀ v ∈ cells₂, v ∉ cells₁)
    (adv : Advances s cells₁ W h W' h') (hw : W'.Fits s e.type e.elements w) :
    Advances s [.array a] W' h' W' (h'.setItem a i w) ∧
      Replacing s e a (i + 1) count cells₂ W' (h'.setItem a i w) := by
  have apart₁ : .array a ∉ cells₁ := fun h => y.apart (List.mem_append_left _ h)
  have apart₂ : .array a ∉ cells₂ := fun h => y.apart (List.mem_append_right _ h)
  have items : h'.items a = h.items a := adv.changes.items a y.held apart₁
  have untyped : W'.array a = none := (adv.arrays a y.held apart₁).trans y.untyped
  have hi : i < (h.items a).length := by
    have := y.length
    omega
  -- the array itself is the only cell that is written
  have write : Advances s [.array a] W' h' W' (h'.setItem a i w) := by
    exact .of_changesOnly adv.describes (untyped_array untyped)
      (h'.changesOnly_setItem List.mem_cons_self i w)
  have new : (h'.setItem a i w).items a = (h.items a).set i w := by
    rw [Heap.items_setItem, if_pos rfl, items]
  refine ⟨write, write.describes, (y.held.grows adv.changes.grows).grows write.changes.grows,
    untyped, apart₂, ?_, ?_, ?_⟩
  · rw [new, List.length_set, ← y.length]
    omega
  · intro v hv
    have take : ((h.items a).set i w).take (i + 1) = (h.items a).take i ++ [w] := by
      rw [List.take_succ_eq_append_getElem (by rw [List.length_set]; exact hi),
        List.getElem_set_self, List.take_set_of_le (Nat.le_refl i)]
    rw [new, take, List.mem_append, List.mem_singleton] at hv
    rcases hv with hv | rfl
    · exact (y.done v hv).mono adv.more
    · exact hw
  · rw [new, List.drop_set_of_lt (Nat.lt_succ_self i)]
    refine (rest.advance adv hd).advance write fun v hv h => apart₂ ?_
    exact List.mem_singleton.1 h ▸ hv

theorem replaceItems_typed {action : Value → Engine Value} {e : Property} {a : ArrayId}
    (c : Context)
    (hact : ∀ {cells W st v}, W.Describes s st.heap → W.Ready st.heap [v] cells →
      Typed s cells W st.heap (action v c st) fun w W _ => W.Fits s e.type e.elements w)
    {i count : Nat} (y : Replacing s e a i count cells W st.heap) :
    Typed s (.array a :: cells) W st.heap (replaceItems action a i count c st)
      fun _ W' h' => ∃ cells', Replacing s e a (i + count) 0 cells' W' h' := by
  induction count generalizing i cells W st with
  | zero => exact .pure y.describes ⟨cells, y⟩
  | succ count ih =>
    have hi : i < (st.heap.items a).length := by
      have := y.length
      omega
    have ready := y.ready
    rw [List.drop_eq_getElem_cons hi] at ready
    obtain ⟨cells₁, cells₂, rfl, first, rest, hd⟩ := ready.split
    have item : st.heap.item a i = (st.heap.items a)[i] := by
      rw [Heap.item, List.getD_eq_getElem?_getD, List.getElem?_eq_getElem hi, Option.getD_some]
    change Typed s _ W st.heap ((action (st.heap.item a i) >>= fun v =>
      changeHeap (·.setItem a i v) >>= fun _ => replaceItems action a (i + 1) count) c st) _
    rw [item, show i + (count + 1) = i + 1 + count by omega]
    refine (hact y.describes first).bind (fun v hv => ?_) fun w W' st' adv hw => ?_
    · exact List.mem_cons_of_mem _ (List.mem_append_left _ hv)
    · obtain ⟨write, y'⟩ := y.step rest hd adv hw
      have others := @ih cells₂ W' { st' with heap := st'.heap.setItem a i w } (i + 1) y'
      refine ⟨.array a :: cells₂, fun v hv => Or.inl ?_, others.after (write.mono fun v hv => ?_)
        fun _ h => Or.inl h⟩
      · exact List.cons_subset_cons _ (List.subset_append_right _ _) hv
      · exact Or.inl (List.mem_singleton.1 hv ▸ List.mem_cons_self)

theorem coerceArray_typed {stored : Property → Value → Engine Value} {q : Property}
    (hq : st.options.property = some q)
    (hs : ∀ {e c' cells W st v}, q.elementProperty? = some e → c'.schema = c.schema →
      W.Describes s st.heap → W.Ready st.heap [v] cells →
        Typed s cells W st.heap (stored e v c' st) fun w W _ => W.Fits s e.type e.elements w)
    (d : W.Describes s st.heap) (y : W.Ready st.heap [v] cells) :
    Typed s cells W st.heap (coerceArray stored v c st)
      fun w W _ => W.Fits s (.builtin .array) q.elements w := by
  unfold coerceArray
  split
  · exact .pure d (Or.inl rfl)
  · exact .pure d (Or.inl rfl)
  · rename_i a
    rw [bind_run]
    dsimp only [options]
    rw [hq, Option.bind_some]
    rcases he : q.elementProperty? with _ | e
    · have none : q.elements = [] := by
        unfold Property.elementProperty? at he
        split at he
        · assumption
        · cases he
      exact .pure d (fits_of_accepts (fun _ => none) (Or.inr ⟨rfl, rfl⟩))
    · have some := (Property.elementProperty?_eq_some he).1
      obtain ⟨inside, rfl, start⟩ := Replacing.of_ready d y
      have loop : Typed s (.array a :: inside) W st.heap
          (holding [.array a] (replaceItems (stored e) a 0 (st.heap.items a).length) c st) _ :=
        replaceItems_typed { c with held := [.array a] ++ c.held } (hs he rfl) start
      refine loop.bind (fun _ h => h) fun _ W' st' adv ⟨cells', y'⟩ => ?_
      -- every element has been replaced
      have all : ∀ v ∈ st'.heap.items a, W'.Fits s e.type e.elements v := by
        have length := y'.length
        have done := y'.done
        rw [Nat.add_zero] at length
        rwa [length, List.take_length] at done
      have last : Advances s [.array a] W' st'.heap (W'.assignItems a e.type e.elements) st'.heap :=
        .assignItems y'.describes List.mem_cons_self y'.held y'.untyped all
      refine ⟨[.array a], fun v hv => Or.inl ?_, _, last, fun w hw => ?_⟩
      · exact List.mem_singleton.1 hv ▸ List.mem_cons_self
      · cases hw
        rw [some]
        exact Or.inr ⟨a, rfl, if_pos rfl⟩
  · exact .invalid d v (Or.inl rfl)

/-- What is coerced to a built-in type is of that type. -/
theorem coerceBuiltin_typed {stored : Property → Value → Engine Value} {q : Property} {b : Builtin}
    (hq : st.options.property = some q) (hb : q.type = .builtin b)
    (hs : ∀ {e c' cells W st v}, q.elementProperty? = some e → c'.schema = c.schema →
      W.Describes s st.heap → W.Ready st.heap [v] cells →
        Typed s cells W st.heap (stored e v c' st) fun w W _ => W.Fits s e.type e.elements w)
    (d : W.Describes s st.heap) (y : W.Ready st.heap [v] cells) :
    Typed s cells W st.heap (coerceBuiltin stored b v c st)
      fun w W _ => W.Fits s q.type q.elements w := by
  have hv := y.trees.not_model
  have scalar : ∀ {b : Builtin}, b ≠ .integer → b ≠ .array →
      Typed s cells W st.heap (coerceScalar b v c st)
        fun w W _ => W.Fits s (.builtin b) q.elements w := fun hi ha =>
    (coerceScalar_typed hi d hv).imp fun _ _ _ => fits_of_accepts fun e => absurd e ha
  rw [hb]
  cases b with
  | integer =>
    exact (coerceInteger_typed d hv).imp fun _ _ _ => fits_of_accepts nofun
  | object => exact .pure d (fits_of_accepts nofun (Or.inr ⟨hv, rfl⟩))
  | array => exact coerceArray_typed hq hs d y
  | string => exact scalar nofun nofun
  | number => exact scalar nofun nofun
  | boolean => exact scalar nofun nofun
  | date => exact scalar nofun nofun

end Coercing

end Engine

end Overlay
