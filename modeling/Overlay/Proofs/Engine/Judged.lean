import Overlay.Proofs.Engine.Runs
import Overlay.Proofs.Heap.Known
import Overlay.Proofs.Schema.Free

/-!
# Runs that come to a verdict

In collecting mode, a run on values that show trees comes to what `Verdict` says of the trees: it
records the same errors in the same order, and ends with a result or with the same error.  It may
only run out of depth before.

* `Engine.Judged.bind` : one run after another;
* `Engine.Settled` : what is known of a value that was put in a slot;
* `Engine.coerceBuiltin_judged` : coercion to a built-in type comes to the verdict on the tree.
-/

namespace Overlay

namespace Options

/-- The options with errors recorded, if diagnostics are collected. -/
def noting (o : Options) (es : List Error) : Options :=
  { o with diagnostics := o.diagnostics.map (· ++ es.map .recorded) }

@[simp] theorem noting_nil (o : Options) : o.noting [] = o := by
  obtain ⟨ds, strict, p⟩ := o
  cases ds <;> simp [noting]

theorem noting_noting (o : Options) (es es' : List Error) :
    (o.noting es).noting es' = o.noting (es ++ es') := by
  obtain ⟨ds, strict, p⟩ := o
  cases ds <;> simp [noting]

/-- Diagnostics are collected, with this strictness and this property at hand. -/
structure Gathers (o : Options) (strict : Bool) (p : Option Property) : Prop where
  /-- Diagnostics are collected. -/
  collects : o.collects = true
  /-- The strictness. -/
  strict : o.strict = strict
  /-- The property at hand. -/
  property : o.property = p

theorem Gathers.noting {o : Options} {strict : Bool} {p : Option Property}
    (g : o.Gathers strict p) (es : List Error) : (o.noting es).Gathers strict p := by
  obtain ⟨ds, _, _⟩ := o
  exact ⟨by cases ds <;> [exact g.collects; rfl], g.strict, g.property⟩

theorem Gathers.concerning {o : Options} {strict : Bool} {p : Option Property}
    (g : o.Gathers strict p) (q : Property) :
    { o with property := some q }.Gathers strict (some q) :=
  ⟨g.collects, g.strict, rfl⟩

end Options

namespace Engine

open Heap

/-- Unless it runs out of depth, the run touches cells of the list and new ones only, records the
errors of the verdict, and ends as the verdict says.  The last predicate relates the results, given
the heap then. -/
def Judged {α β : Type} (T : List Value) (st : State) (V : Verdict β) (R : α → β → Heap → Prop)
    (run : Except Fault α × State) : Prop :=
  run.1 = .error .exhausted ∨
    st.heap.ChangesOnly run.2.heap T ∧ run.2.options = st.options.noting V.signalled ∧
      match V.result with
      | .error e => run.1 = .error (.error e)
      | .ok b => ∃ a, run.1 = .ok a ∧ R a b run.2.heap

namespace Judged

variable {α β γ δ : Type} {T T' : List Value} {st : State} {V : Verdict β} {c : Context}
  {R R' : α → β → Heap → Prop}

theorem pure {a : α} {b : β} (h : R a b st.heap) :
    Judged T st (Pure.pure b) R ((Pure.pure a : Engine α) c st) :=
  Or.inr ⟨.refl _ _, (Options.noting_nil _).symm, a, rfl, h⟩

theorem exhausted {run : Except Fault α × State} (h : run.1 = .error .exhausted) :
    Judged T st V R run := Or.inl h

theorem raise (e : Error) : Judged T st (.raise e) R ((Engine.raise e : Engine α) c st) :=
  Or.inr ⟨.refl _ _, (Options.noting_nil _).symm, rfl⟩

theorem mono {run : Except Fault α × State} (j : Judged T st V R run)
    (sub : ∀ v ∈ T, v ∈ T' ∨ ¬ st.heap.Holds v)
    (imp : ∀ a b h, st.heap.ChangesOnly h T → R a b h → R' a b h) : Judged T' st V R' run := by
  rcases j with h | ⟨d, noted, ends⟩
  · exact Or.inl h
  · refine Or.inr ⟨d.mono sub, noted, ?_⟩
    split at ends
    · exact ends
    · obtain ⟨a, ha, r⟩ := ends
      exact ⟨a, ha, imp _ _ _ d r⟩

theorem map {run : Except Fault α × State} {f : β → γ} {Q : α → γ → Heap → Prop}
    (j : Judged T st V R run)
    (imp : ∀ a b h, st.heap.ChangesOnly h T → R a b h → Q a (f b) h) :
    Judged T st (V >>= fun b => Pure.pure (f b)) Q run := by
  rcases j with h | ⟨d, noted, ends⟩
  · exact Or.inl h
  · refine Or.inr ⟨d, ?_⟩
    cases hV : V.result with
    | error e =>
      rw [hV] at ends
      rw [Verdict.bind_of_error hV]
      exact ⟨noted, ends⟩
    | ok b =>
      rw [hV] at ends
      obtain ⟨a, ha, r⟩ := ends
      rw [Verdict.bind_of_ok hV]
      exact ⟨by simpa using noted, a, ha, imp _ _ _ d r⟩

/-- A step that leaves the options alone goes before. -/
theorem after {run : Except Fault α × State} (st' : State) (T' : List Value)
    (d : st.heap.ChangesOnly st'.heap T)
    (same : st'.options = st.options) (j : Judged T' st' V R run)
    (sub : ∀ v ∈ T', v ∈ T ∨ ¬ st.heap.Holds v) : Judged T st V R run := by
  rcases j with h | ⟨d', noted, ends⟩
  · exact Or.inl h
  · exact Or.inr ⟨d.trans d' sub, by rw [noted, same], ends⟩

/-- One run after another, each with cells of its own. -/
theorem bind {act : Engine α} {next : α → Engine γ} {V' : β → Verdict δ}
    {Q : γ → δ → Heap → Prop} (first : Judged T st V R (act c st))
    (sub : ∀ v ∈ T, v ∈ T' ∨ ¬ st.heap.Holds v)
    (rest : ∀ a b st', st.heap.ChangesOnly st'.heap T →
      st'.options = st.options.noting V.signalled → R a b st'.heap →
        Judged T' st' (V' b) Q (next a c st')) :
    Judged T' st (V >>= V') Q ((act >>= next) c st) := by
  rw [bind_run]
  rcases hr : act c st with ⟨result, st'⟩
  rw [hr] at first
  rcases first with h | ⟨d, noted, ends⟩
  · dsimp only at h
    subst h
    exact Or.inl rfl
  · cases hV : V.result with
    | error e =>
      rw [hV] at ends
      dsimp only at ends
      subst ends
      rw [Verdict.bind_of_error hV]
      exact Or.inr ⟨d.mono sub, noted, rfl⟩
    | ok b =>
      rw [hV] at ends
      obtain ⟨a, ha, r⟩ := ends
      dsimp only at ha
      subst ha
      rw [Verdict.bind_of_ok hV]
      rcases rest a b st' d noted r with h | ⟨d', noted', ends'⟩
      · exact Or.inl h
      · refine Or.inr ⟨(d.mono sub).trans d' fun v hv => Or.inl hv, ?_, ends'⟩
        rw [noted', noted, Options.noting_noting]

theorem concerning {act : Engine α} {p : Property}
    (j : Judged T { st with options := { st.options with property := some p } } V R
      (act c { st with options := { st.options with property := some p } })) :
    Judged T st V R (Engine.concerning p act c st) := by
  rcases j with h | ⟨d, noted, ends⟩
  · exact Or.inl h
  · refine Or.inr ⟨d, ?_, ends⟩
    unfold Engine.concerning
    dsimp only
    rw [noted]
    rfl

theorem signal {strict : Bool} {p : Option Property} {P : Value → Tree → Heap → Prop}
    (g : st.options.Gathers strict p) (e : Error)
    (hP : P .undefined (.leaf .undefined) st.heap) :
    Judged T st (Verdict.signal e) P (Engine.signal e c st) := by
  obtain ⟨heap, ⟨ds, strict, p⟩, log⟩ := st
  cases ds with
  | none => cases g.collects
  | some ds =>
    unfold Verdict.signal Engine.signal Options.record?
    by_cases he : e.isRecordable = true
    · simp only [he, if_true]
      exact Or.inr ⟨.refl _ _, rfl, _, rfl, hP⟩
    · simp only [he]
      exact Judged.raise (c := c) e

theorem invalid {strict : Bool} {p : Option Property} {P : Value → Tree → Heap → Prop}
    (g : st.options.Gathers strict p) {v : Value} {x : Tree} (text : st.heap.text v = x.text)
    (hP : P .undefined (.leaf .undefined) st.heap) :
    Judged T st (Verdict.invalid (p.map Property.name) x) P (Engine.invalid v c st) := by
  have signalled := signal (T := T) (c := c) g
    (.invalidValue (st.options.property.map Property.name) (st.heap.text v)) hP
  rw [g.property, text] at signalled
  unfold Engine.invalid
  rw [bind_run]
  dsimp only [options, bind_run, heap]
  rw [g.property, text]
  exact signalled

end Judged

/-! ### Values without parts -/

section Scalars

variable {s : Schema} {c : Context} {st : State} {strict : Bool} {p : Option Property}
  {P : Value → Prop} {v : Value} {x : Tree} {T : List Value}

/-- The result is the leaf that the verdict gives. -/
def Leaf (w : Value) (y : Tree) (_ : Heap) : Prop := y = .leaf w ∧ w.isScalar = true

theorem isScalar_of_converted? {b : Builtin} {w : Value} (h : b.converted? v = some w) :
    w.isScalar = true := by
  cases b <;> simp only [Builtin.converted?, Option.map_eq_some_iff, reduceCtorEq] at h
  all_goals
    obtain ⟨x, -, rfl⟩ := h
    rfl

theorem scalar_of_container {b : Builtin} (object : b ≠ .object) (array : b ≠ .array)
    (hv : v.isArray = true ∨ v.isRecord = true) :
    (v.isNothing || b.accepts v) = false ∧ b.converted? v = none := by
  cases v <;> simp [Value.isArray, Value.isRecord] at hv
  all_goals cases b <;> first | exact absurd rfl object | exact absurd rfl array | exact ⟨rfl, rfl⟩

theorem coerceScalar_judged {b : Builtin} (object : b ≠ .object) (array : b ≠ .array)
    (g : st.options.Gathers strict p) (sh : st.heap.Shows P [v] [x])
    (held : ∀ u, P u → st.heap.Holds u) :
    Judged T st (Tree.scalar strict (p.map Property.name) b x) Leaf (coerceScalar b v c st) := by
  have refused : Judged T st (Verdict.invalid (p.map Property.name) x) Leaf
      (Engine.invalid v c st) := .invalid g (sh.text_eq held) ⟨rfl, rfl⟩
  have strictness : ∀ act : Engine Value,
      (options >>= fun o => if o.strict = true then Engine.invalid v else act) c st =
        if strict = true then Engine.invalid v c st else act c st := by
    intro act
    rw [bind_run]
    dsimp only [options]
    rw [g.strict]
    split <;> rfl
  have container : v.isArray = true ∨ v.isRecord = true → coerceScalar b v c st =
      Engine.invalid v c st := by
    intro hv
    obtain ⟨accepts, converted⟩ := scalar_of_container object array hv
    unfold coerceScalar
    rw [accepts, if_neg Bool.false_ne_true, strictness, converted]
    split <;> rfl
  cases sh with
  | leaf plain _ =>
    unfold coerceScalar Tree.scalar
    dsimp only
    split
    · exact .pure ⟨rfl, plain⟩
    · rw [strictness]
      split
      · exact refused
      · cases hw : b.converted? v with
        | none => exact refused
        | some w => exact .pure ⟨rfl, isScalar_of_converted? hw⟩
  | array _ _ _ => exact container (Or.inl rfl) ▸ refused
  | record _ _ _ _ => exact container (Or.inr rfl) ▸ refused

theorem coerceInteger_judged (g : st.options.Gathers strict p) (sh : st.heap.Shows P [v] [x])
    (held : ∀ u, P u → st.heap.Holds u) :
    Judged [] st (Tree.integer strict (p.map Property.name) x) Leaf (coerceInteger v c st) := by
  refine (coerceScalar_judged (b := .number) (T := []) nofun nofun g sh held).bind
    (fun _ h => Or.inl h)
    fun w y st' d noted ⟨hy, plain⟩ => ?_
  have g' : st'.options.Gathers strict p := noted ▸ g.noting _
  have text : st'.heap.text v = x.text :=
    (sh.of_changesOnly d fun u hu => ⟨held u hu, List.not_mem_nil⟩).text_eq fun u hu =>
      (held u hu).grows d.grows
  subst hy
  cases w with
  | number n =>
    dsimp only
    split
    · exact .pure ⟨rfl, rfl⟩
    · exact .invalid g' text ⟨rfl, rfl⟩
  | _ => exact .pure ⟨rfl, plain⟩

end Scalars

/-! ### Values in slots -/

section Slots

variable {s : Schema} {c : Context} {st : State} {strict : Bool} {F : Value → Prop} {q : Slot}
  {v w : Value} {x y : Tree} {T : List Value} {h : Heap}

/-- The value `v` that showed `x` was put in a slot: the stored value is `w`, and it shows `y`.
Unless that is a leaf it is `v` itself, so that `v` shows it, too. -/
structure Settled (s : Schema) (F : Value → Prop) (T : List Value) (q : Slot) (v : Value) (x : Tree)
    (w : Value) (y : Tree) (h : Heap) : Prop where
  /-- A leaf is the stored value. -/
  leaf : y.isLeaf = true → y = .leaf w ∧ w.isScalar = true
  /-- A stored value with parts is the value that was handed in. -/
  same : y.isLeaf = false → w = v
  /-- What the value that was handed in shows afterwards. -/
  shows : h.Shows (fun u => F u ∨ u ∈ T) [v] [x.seen y]
  /-- If storage keys belong to one property each, it is known in the slot. -/
  known : s.KeyedSlot q → Known s h (some q) v

namespace Settled

theorem shows_stored (st : Settled s F T q v x w y h) :
    h.Shows (fun u => F u ∨ u ∈ T) [w] [y] := by
  have shows := st.shows
  unfold Tree.seen at shows
  by_cases hy : y.isLeaf = true
  · obtain ⟨e, plain⟩ := st.leaf hy
    rw [e]
    exact .leaf plain .nil
  · rw [if_neg hy] at shows
    rw [st.same (Bool.eq_false_iff.2 hy)]
    exact shows

theorem known_stored (st : Settled s F T q v x w y h) (keyed : s.KeyedSlot q) :
    Known s h (some q) w := by
  by_cases hy : y.isLeaf = true
  · exact .scalar (st.leaf hy).2
  · rw [st.same (Bool.eq_false_iff.2 hy)]
    exact st.known keyed

theorem isUndefined_eq (st : Settled s F T q v x w y h) : y.isUndefined = w.isUndefined :=
  st.shows_stored.isUndefined_eq

theorem of_leaf (o : Offered s h F [some q] [v] [x] T) (hy : y = .leaf w)
    (plain : w.isScalar = true) : Settled s F T q v x w y h where
  leaf := fun _ => ⟨hy, plain⟩
  same := fun h => by rw [hy] at h; cases h
  shows := by
    rw [hy]
    exact o.shows
  known := fun _ => Known.of_free o.shows o.free_of v List.mem_cons_self _

theorem of_same (o : Offered s h F [some q] [v] [x] T) : Settled s F T q v x v x h where
  leaf := o.shows.of_isLeaf
  same := fun _ => rfl
  shows := by
    unfold Tree.seen
    rw [ite_self]
    exact o.shows
  known := fun _ => Known.of_free o.shows o.free_of v List.mem_cons_self _

end Settled

theorem Judged.settles {V : Verdict Tree} {run : Except Fault Value × State}
    (j : Judged [] st V Leaf run) (o : Offered s st.heap F [some q] [v] [x] T) :
    Judged T st V (Settled s F T q v x) run :=
  j.mono (fun _ h => absurd h List.not_mem_nil) fun _ _ _ d ⟨hy, plain⟩ =>
    .of_leaf (o.advance d (fun _ _ => List.not_mem_nil) fun _ _ => List.not_mem_nil) hy plain

/-! #### Elements -/

/-- A loop over the elements of an array has come to `vs`: they are on offer, made of the cells `T`
and shared ones, and `ws` are before them. -/
structure Looping (s : Schema) (F : Value → Prop) (e : Slot) (a : ArrayId) (ws vs : List Value)
    (xs : List Tree) (T : List Value) (h : Heap) : Prop where
  /-- The array is there. -/
  held : h.Holds (.array a)
  /-- These are its elements. -/
  items : h.items a = ws ++ vs
  /-- It is no part of what is on offer. -/
  out : .array a ∉ T
  /-- Nor is it shared. -/
  unshared : ¬ F (.array a)
  /-- The elements are on offer. -/
  offered : Offered s h F (vs.map fun _ => some e) vs xs T

namespace Looping

variable {e : Slot} {a : ArrayId} {ws vs T₁ T₂ : List Value} {xs : List Tree} {h₁ h₂ : Heap}

theorem item (l : Looping s F e a ws (v :: vs) xs T h) : h.item a ws.length = v := by
  rw [Heap.item, l.items]
  simp

/-- The loop goes on when the element is replaced and nothing of the others has changed. -/
theorem next (l : Looping s F e a ws (v :: vs) (x :: xs) (T₁ ++ T₂) h)
    (first : Offered s h F [some e] [v] [x] T₁)
    (others : Offered s h F (vs.map fun _ => some e) vs xs T₂) (apart : ∀ u ∈ T₂, u ∉ T₁)
    (changes : h.ChangesOnly h₁ T₁) (w : Value) :
    Looping s F e a (ws ++ [w]) vs xs T₂ (h₁.setItem a ws.length w) := by
  have items : h₁.items a = ws ++ v :: vs :=
    (changes.items a l.held fun h => l.out (List.mem_append_left _ h)).trans l.items
  have out : .array a ∉ T₂ := fun h => l.out (List.mem_append_right _ h)
  refine ⟨(l.held.grows changes.grows).grows (h₁.grows_setItem ..), ?_, out, l.unshared, ?_⟩
  · rw [Heap.items_setItem, if_pos rfl, items]
    simp
  · exact (others.advance changes (fun u hu => (first.shared u hu).2.1) apart).advance
      (h₁.changesOnly_setItem List.mem_cons_self _ _)
      (fun u hu e => l.unshared (List.mem_singleton.1 e ▸ hu))
      fun u hu e => out (List.mem_singleton.1 e ▸ hu)

theorem still {i : Nat} {w : Value} (later : (h₁.setItem a i w).ChangesOnly h₂ (.array a :: T₂)) :
    h₁.ChangesOnly h₂ (.array a :: T₂) :=
  ((h₁.changesOnly_setItem List.mem_cons_self i w).mono fun _ hu => Or.inl
    (List.mem_singleton.1 hu ▸ List.mem_cons_self)).trans later fun _ hu => Or.inl hu

theorem untouched (l : Looping s F e a ws (v :: vs) (x :: xs) (T₁ ++ T₂) h)
    (first : Offered s h F [some e] [v] [x] T₁)
    (others : Offered s h F (vs.map fun _ => some e) vs xs T₂) (apart : ∀ u ∈ T₂, u ∉ T₁)
    (grows : h.Grows h₁) : ∀ u, F u ∨ u ∈ T₁ → h₁.Holds u ∧ u ∉ .array a :: T₂ := fun u hu =>
  ⟨(first.holds_of u hu).grows grows, List.not_mem_cons_of_ne_of_not_mem
    (fun e => hu.elim (fun hu => l.unshared (e ▸ hu)) fun hu => l.out
      (List.mem_append_left _ (e ▸ hu)))
    (hu.elim (fun hu => (others.shared u hu).2.1) fun hu h => apart u h hu)⟩

end Looping

/-- Elements are replaced by their stored forms one after the other.  Those before the first one
stay. -/
theorem replaceItems_judged {action : Value → Engine Value} {e : Slot} {a : ArrayId}
    {p : Option Property} (c : Context)
    (hact : ∀ {st v x T}, st.options.Gathers strict p → Offered s st.heap F [some e] [v] [x] T →
      Judged T st (Tree.stored s strict e x) (Settled s F T e v x) (action v c st))
    {ws vs : List Value} {xs : List Tree} (g : st.options.Gathers strict p)
    (l : Looping s F e a ws vs xs T st.heap) :
    Judged (.array a :: T) st (Tree.storedItems s strict e xs)
      (fun _ ys h => ∃ ws', h.items a = ws ++ ws' ∧ h.Shows (fun u => F u ∨ u ∈ T) ws' ys ∧
        (s.KeyedSlot e → ∀ w ∈ ws', Known s h (some e) w))
      (replaceItems action a ws.length vs.length c st) := by
  induction vs generalizing ws xs T st with
  | nil =>
    cases l.offered.laid
    exact .pure ⟨[], l.items, .nil, fun _ _ h => absurd h List.not_mem_nil⟩
  | cons v vs ih =>
    obtain - | ⟨x, xs⟩ := xs
    · cases l.offered.laid
    · obtain ⟨T₁, T₂, rfl, first, others, apart⟩ := l.offered.split
      show Judged (.array a :: (T₁ ++ T₂)) st _ _ ((action (st.heap.item a ws.length) >>= fun w =>
        changeHeap (·.setItem a ws.length w) >>= fun _ =>
          replaceItems action a (ws.length + 1) vs.length) c st)
      rw [l.item, Tree.storedItems]
      refine (hact g first).bind (fun u hu => Or.inl ?_) fun w y st₁ d noted settled => ?_
      · exact List.mem_cons_of_mem _ (List.mem_append_left _ hu)
      let st₂ : State := { st₁ with heap := st₁.heap.setItem a ws.length w }
      have rest : Judged (.array a :: T₂) st₂ (Tree.storedItems s strict e xs) _
          (replaceItems action a (ws ++ [w]).length vs.length c st₂) :=
        ih (noted ▸ g.noting _) (l.next first others apart d w)
      rw [List.length_append] at rest
      refine Judged.after st₂ (.array a :: T₂) (Looping.still (.refl _ _)) rfl
        (rest.map fun _ ys h d' related => ?_) fun u hu => Or.inl ?_
      · obtain ⟨ws', items', shown, known⟩ := related
        -- what the first element shows is not touched any more
        have still := Looping.still d'
        have untouched := l.untouched first others apart d.grows
        refine ⟨w :: ws', by rw [items', List.append_assoc]; rfl, ?_, fun keyed u hu => ?_⟩
        · refine ((settled.shows_stored.of_changesOnly still untouched).mono fun u => ?_).cons
            (shown.mono fun u => ?_)
          · exact Or.imp_right (List.mem_append_left _)
          · exact Or.imp_right (List.mem_append_right _)
        · rcases List.mem_cons.1 hu with rfl | hu
          · exact Known.of_changesOnly settled.shows_stored still untouched _ List.mem_cons_self _
              (settled.known_stored keyed)
          · exact known keyed u hu
      · exact List.cons_subset_cons _ (List.subset_append_right _ _) hu

/-! #### Built-in types -/

theorem coerceArray_judged {stored : Property → Value → Engine Value} {p : Option Property}
    (hq : q.AtHand p) (type : q.type = .builtin .array) (g : st.options.Gathers strict p)
    (hs : ∀ {e c' st v x T}, p.bind (·.elementProperty?) = some e → c'.schema = c.schema →
      st.options.Gathers strict p → Offered s st.heap F [some e.slot] [v] [x] T →
        Judged T st (Tree.stored s strict e.slot x) (Settled s F T e.slot v x) (stored e v c' st))
    (o : Offered s st.heap F [some q] [v] [x] T) :
    Judged T st (Tree.stored s strict q x) (Settled s F T q v x) (coerceArray stored v c st) := by
  have refused : Judged T st (Verdict.invalid q.name x) (Settled s F T q v x)
      (Engine.invalid v c st) := by
    rw [hq.name]
    exact .invalid g o.text_eq (.of_leaf o rfl rfl)
  have form : q.form? s = none := by
    unfold Slot.form?
    rw [type]
  have idle : x.Still s (some q) → Tree.stored s strict q x =
      if x.isNothing || x.isArray then pure x else Verdict.invalid q.name x := by
    intro still
    rw [Tree.stored_of_still still]
    unfold Tree.idle
    rw [type]
  cases x with
  | leaf u =>
    obtain ⟨e, plain⟩ := o.shows.of_isLeaf rfl
    cases e
    rw [idle trivial]
    cases v <;> first | exact .pure (.of_leaf o rfl rfl) | exact refused | cases plain
  | record es =>
    rw [idle form]
    have hv := o.shows.isRecord_eq
    cases v <;> first | exact refused | cases hv
  | array xs =>
    have elements : q.items? = (p.bind (·.elementProperty?)).map Property.slot := by
      unfold Slot.items?
      rw [type]
      exact hq.element
    have hv := o.shows.isArray_eq
    obtain ⟨a, rfl⟩ : ∃ a, v = .array a := by
      cases v <;> first | exact ⟨_, rfl⟩ | cases hv
    unfold coerceArray
    dsimp only
    rw [bind_run]
    dsimp only [options]
    rw [g.property]
    cases he : p.bind (·.elementProperty?) with
    | none =>
      rw [idle (elements.trans (by rw [he]; rfl))]
      exact .pure (.of_same o)
    | some e =>
      have items : q.items? = some e.slot := elements.trans (by rw [he]; rfl)
      obtain ⟨b, T', e', rfl, out, hF, inside⟩ := o.of_array items
      cases e'
      -- when the loop starts, the whole array is on offer
      have looping : Looping s F e.slot a [] (st.heap.items a) xs T' st.heap :=
        ⟨o.held _ List.mem_cons_self, rfl, out, hF, inside⟩
      have loop : Judged (.array a :: T') st (Tree.storedItems s strict e.slot xs) _
          (holding [.array a] (replaceItems (stored e) a 0 (st.heap.items a).length) c st) :=
        replaceItems_judged { c with held := [.array a] ++ c.held } (fun g o => hs he rfl g o) g
          looping
      rw [Tree.stored, items]
      refine loop.bind (fun _ h => Or.inl h) fun _ ys st' d noted ⟨ws, items', shown, known⟩ => ?_
      -- the array itself stays; only its elements are other ones
      have shown' : st'.heap.Shows (fun u => F u ∨ u ∈ .array a :: T') [.array a] [.array ys] := by
        refine .array (Or.inr List.mem_cons_self) ?_ .nil
        rw [items', List.nil_append]
        exact shown.mono fun u => Or.imp_right (List.mem_cons_of_mem _)
      refine .pure ⟨nofun, fun _ => rfl, shown', fun keyed => .array fun u hu => ?_⟩
      rw [items', List.nil_append] at hu
      rw [Option.bind_some, Slot.element?_of_items? items]
      exact known (keyed.element items) u hu

/-- Coercion to a built-in type comes to the verdict on the tree. -/
theorem coerceBuiltin_judged {stored : Property → Value → Engine Value} {p : Option Property}
    {b : Builtin} (hq : q.AtHand p) (type : q.type = .builtin b) (g : st.options.Gathers strict p)
    (hs : ∀ {e c' st v x T}, p.bind (·.elementProperty?) = some e → c'.schema = c.schema →
      st.options.Gathers strict p → Offered s st.heap F [some e.slot] [v] [x] T →
        Judged T st (Tree.stored s strict e.slot x) (Settled s F T e.slot v x) (stored e v c' st))
    (o : Offered s st.heap F [some q] [v] [x] T) :
    Judged T st (Tree.stored s strict q x) (Settled s F T q v x)
      (coerceBuiltin stored b v c st) := by
  have form : q.form? s = none := by
    unfold Slot.form?
    rw [type]
  by_cases array : b = .array
  · subst array
    exact coerceArray_judged hq type g hs o
  · have still : x.Still s (some q) := by
      cases x with
      | leaf u => trivial
      | record es => exact form
      | array xs =>
        show q.items? = none
        unfold Slot.items?
        rw [type]
        split
        · exact absurd (DataType.builtin.inj ‹_›) array
        · rfl
    have scalar : b ≠ .object → Judged T st (Tree.scalar strict q.name b x) (Settled s F T q v x)
        (coerceScalar b v c st) := fun object =>
      hq.name ▸ (coerceScalar_judged object array g o.shows o.holds_of).settles o
    rw [Tree.stored_of_still still]
    unfold Tree.idle
    rw [type]
    cases b with
    | array => exact absurd rfl array
    | object => exact .pure (.of_same o)
    | integer => exact hq.name ▸ (coerceInteger_judged g o.shows o.holds_of).settles o
    | string => exact scalar nofun
    | number => exact scalar nofun
    | boolean => exact scalar nofun
    | date => exact scalar nofun

end Slots

end Engine

end Overlay
