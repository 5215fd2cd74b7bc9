import Overlay.Proofs.Engine.Runs
import Overlay.Proofs.Schema.Held
import Overlay.Proofs.Snapshot.Steps

/-!
# Steady computations

A computation is steady if it does nothing to the heap but take the steps of `Heap.Step`, however
it ends, and what it stores is among the values that it is given, was seen in the heap or is kept by
the types.  So if all of these are of a kind that a `Heap.Guard` keeps apart, the steps write values
of this kind only, and into cells of this kind only; if they are there, for one, the steps are safe.

* `Engine.Steady` : a computation that is given certain values is steady;
* `Engine.Steady.steps` : its steps are safe;
* `Engine.Steady.grows` : it lets the heap grow, wherever the values come from;
* `Engine.Steady.attachModel` : attaching a new model to its record;
* `Engine.coerceBuiltin_steady` : coercion to a built-in type.
-/

namespace Overlay

theorem Constants.mem_of_denoted? {s : Schema} {h : Heap} {t : TypeId} {v : Value} {c : Constant}
    (cs : Constants) (hc : cs.denoted? s h t v = some c) : c ∈ cs.all := by
  have either : ∀ {p q : Constant → Bool},
      (cs.all.find? p).or (cs.all.find? q) = some c → c ∈ cs.all := by
    intro p q hc
    rcases Option.or_eq_some_iff.1 hc with hc | ⟨-, hc⟩ <;> exact List.mem_of_find?_eq_some hc
  unfold denoted? at hc
  split at hc
  · split at hc
    · exact either hc
    · cases hc
  · rcases Option.or_eq_some_iff.1 hc with hc | ⟨-, hc⟩
    · exact either hc
    · exact List.mem_of_find?_eq_some hc
  · exact List.mem_of_find?_eq_some hc

namespace Engine

/-- Whatever kind of values the computation is given, it takes steps of the heap only that write
values of the kind into cells of the kind, and gives such values. -/
def Steady {α : Type} (s : Schema) (vs : List Value) (act : Engine α) (out : α → List Value) :
    Prop :=
  ∀ (G : Heap.Guard s) (c : Context) (st : State), c.schema = s →
    G.Sound (vs ++ s.usedValues) (c.held ++ s.heldValues) st.heap →
    G.Keeps st.heap (act c st).2.heap ∧
      ∀ a, (act c st).1 = .ok a → ∀ v ∈ out a, G.Has (act c st).2.heap v

/-! ### Steps -/

namespace Steady

variable {α β : Type} {s : Schema} {vs ws : List Value} {act : Engine α} {out : α → List Value}
  {out' : β → List Value}

/-- If the values that it is given are there, the steps are safe and what it gives is there. -/
theorem steps (h : Steady s vs act out) (safe : Prop) (c : Context) (st : State) (hc : c.schema = s)
    (sound : safe → st.heap.Sound (vs ++ (c.held ++ s.heldValues))) :
    st.heap.Steps s safe (act c st).2.heap ∧
      ∀ a, (act c st).1 = .ok a → ∀ v ∈ out a, safe → (act c st).2.heap.Holds v := by
  have start : (Heap.Guard.safe s safe st.heap).Sound (vs ++ s.usedValues) (c.held ++ s.heldValues)
      st.heap := by
    refine ⟨⟨.refl, fun hs => (sound hs).closed⟩, fun v hv hs => (sound hs).there v ?_,
      fun hs v hv => (sound hs).there v (List.mem_append_right _ hv)⟩
    rcases List.mem_append.1 hv with hv | hv
    · exact List.mem_append_left _ hv
    · exact List.mem_append_right _ (List.mem_append_right _ (Schema.held_of_used hv))
  obtain ⟨keeps, there⟩ := h _ c st hc start
  exact ⟨keeps.ok.1, there⟩

/-- However a steady run ends, it lets the heap grow. -/
theorem grows (h : Steady s vs act out) {c : Context} (hc : c.schema = s) {st st' : State}
    {result : Except Fault α} (he : act c st = (result, st')) : st.heap.Grows st'.heap := by
  have steps := (h.steps False c st hc False.elim).1
  rw [he] at steps
  exact Heap.Steps.grows steps

theorem same (hh : ∀ c st, (act c st).2.heap = st.heap)
    (hout : ∀ c st a, (act c st).1 = .ok a → ∀ v ∈ out a, v ∈ vs) : Steady s vs act out := by
  intro G c st hc sound
  rw [hh]
  refine ⟨.refl sound.ok, fun a ha v hv => ?_⟩
  exact sound.there v (List.mem_append_left _ (hout c st a ha v hv))

theorem mono (h : Steady s ws act out) (sub : ∀ v ∈ ws, v ∈ vs) : Steady s vs act out := by
  intro G c st hc sound
  refine h G c st hc (sound.mono fun v hv => ?_)
  exact (List.mem_append.1 hv).elim (fun hv => List.mem_append_left _ (sub v hv))
    (List.mem_append_right _)

/-- What the types keep for this may be used. -/
theorem kept (ws : List Value) (h : Steady s (ws ++ vs) act out)
    (sub : ∀ v ∈ ws, v ∈ s.usedValues) : Steady s vs act out := by
  intro G c st hc sound
  refine h G c st hc (sound.mono fun v hv => ?_)
  simp only [List.mem_append] at hv ⊢
  rcases hv with (hv | hv) | hv
  · exact Or.inr (sub v hv)
  · exact Or.inl hv
  · exact Or.inr hv

theorem scalars (ws : List Value) (h : Steady s (ws ++ vs) act out)
    (hws : ∀ w ∈ ws, ∀ heap : Heap, heap.Holds w) : Steady s vs act out := by
  intro G c st hc sound
  refine h G c st hc ?_
  rw [List.append_assoc]
  exact sound.append fun w hw => (G.inside sound.ok).scalar (hws w hw)

theorem pure {a : α} (h : ∀ v ∈ out a, v ∈ vs) : Steady s vs (Pure.pure a : Engine α) out :=
  same (fun _ _ => rfl) fun _ _ _ e => by cases e; exact h

theorem scalar {v : Value} (h : ∀ heap : Heap, heap.Holds v) :
    Steady s vs (Pure.pure v : Engine Value) ([·]) :=
  .scalars [v] (.pure fun _ hv => List.mem_append_left _ hv) fun w hw => by
    rw [List.mem_singleton.1 hw]
    exact h

theorem bind {next : α → Engine β} (first : Steady s vs act out)
    (rest : ∀ a, Steady s (out a ++ vs) (next a) out') : Steady s vs (act >>= next) out' := by
  intro G c st hc sound
  obtain ⟨keeps, there⟩ := first G c st hc sound
  rw [bind_run]
  split
  · rename_i a st' he
    rw [he] at keeps there
    obtain ⟨keeps', there'⟩ := rest a G c st' hc (by
      rw [List.append_assoc]
      exact (sound.keeps keeps).append (there a rfl))
    exact ⟨keeps.trans keeps', there'⟩
  · rename_i fault st' he
    rw [he] at keeps
    exact ⟨keeps, fun _ h => by cases h⟩

theorem schema {next : Schema → Engine α} (rest : Steady s vs (next s) out) :
    Steady s vs (Engine.schema >>= next) out := by
  intro G c st hc sound
  have := rest G c st hc sound
  subst hc
  exact this

/-- After a look at the heap, what was seen there may be used. -/
theorem heap {next : Heap → Engine α}
    (rest : ∀ h : Heap, ∃ ws,
      (∀ P : Value → Prop, h.Sealed P → (∀ v ∈ vs, P v) → ∀ w ∈ ws, P w) ∧
        Steady s (ws ++ vs) (next h) out) :
    Steady s vs (Engine.heap >>= next) out := by
  intro G c st hc sound
  obtain ⟨ws, hws, h⟩ := rest st.heap
  refine h G c st hc ?_
  rw [List.append_assoc]
  exact sound.append (hws _ (G.inside sound.ok) fun v hv =>
    sound.there v (List.mem_append_left _ hv))

theorem look {next : Heap → Engine α} (rest : ∀ h, Steady s vs (next h) out) :
    Steady s vs (Engine.heap >>= next) out :=
  .heap fun h => ⟨[], fun _ _ _ _ h => absurd h List.not_mem_nil, rest h⟩

theorem options {next : Options → Engine α} (rest : ∀ o, Steady s vs (next o) out) :
    Steady s vs (Engine.options >>= next) out :=
  fun G c st hc sound => rest st.options G c st hc sound

theorem raise (e : Error) : Steady s vs (Engine.raise e : Engine α) out :=
  same (fun _ _ => rfl) fun _ _ _ e => by cases e

theorem exhausted : Steady s vs (Engine.exhausted : Engine α) out :=
  same (fun _ _ => rfl) fun _ _ _ e => by cases e

theorem log (line : String) : Steady s vs (Engine.log line) fun _ => [] :=
  same (fun _ _ => rfl) fun _ _ _ _ _ hv => absurd hv List.not_mem_nil

theorem signal (e : Error) : Steady s vs (Engine.signal e) ([·]) := by
  intro G c st hc sound
  unfold Engine.signal
  split
  · refine ⟨.refl sound.ok, fun a ha v hv => ?_⟩
    cases ha
    cases List.mem_singleton.1 hv
    exact (G.inside sound.ok).scalar fun _ => trivial
  · exact ⟨.refl sound.ok, fun _ h => by cases h⟩

theorem invalid (v : Value) : Steady s vs (Engine.invalid v) ([·]) :=
  .options fun _ => .look fun _ => signal _

theorem changeHeap {f : Heap → Heap}
    (hf : ∀ (P : Value → Prop) (h : Heap), h.Sealed P → (∀ v ∈ vs, P v) →
      Heap.Move s P P h (f h)) :
    Steady s vs (Engine.changeHeap f) fun _ => [] :=
  fun G _ st _ sound =>
    ⟨.move sound.ok (hf _ st.heap (G.inside sound.ok) fun v hv =>
        sound.there v (List.mem_append_left _ hv)),
      fun _ _ _ hv => absurd hv List.not_mem_nil⟩

theorem allocate {f : Heap → α × Heap}
    (hf : ∀ (P : Value → Prop) (h : Heap), (∀ v ∈ vs, P v) →
      Heap.Move s P P h (f h).2)
    (hout : ∀ h : Heap, ∀ v ∈ out (f h).1, ¬ h.Holds v ∧ (f h).2.Holds v) :
    Steady s vs (Engine.allocate f) out := by
  intro G c st hc sound
  have move := hf (G.Has st.heap) st.heap fun v hv => sound.there v (List.mem_append_left _ hv)
  refine ⟨.move sound.ok move, fun a ha v hv => ?_⟩
  cases ha
  obtain ⟨new, held⟩ := hout st.heap v hv
  exact G.fresh sound.ok move.grows new held

theorem addRecord {f : Fields} (hf : ∀ v ∈ f.values, v ∈ vs) :
    Steady s vs (Engine.allocate (·.addRecord f)) fun r => [.record r] := by
  refine .allocate (fun _ _ there => .addRecord fun v hv => there v (hf v hv)) fun h v hv => ?_
  cases List.mem_singleton.1 hv
  exact ⟨Nat.lt_irrefl _, Nat.lt_of_lt_of_eq (Nat.lt_succ_self _) (Array.size_push _).symm⟩

theorem addArray {us : List Value} (hus : ∀ v ∈ us, v ∈ vs) :
    Steady s vs (Engine.allocate (·.addArray us)) fun a => [.array a] := by
  refine .allocate (fun _ _ there => .addArray fun v hv => there v (hus v hv)) fun h v hv => ?_
  cases List.mem_singleton.1 hv
  exact ⟨Nat.lt_irrefl _, Nat.lt_of_lt_of_eq (Nat.lt_succ_self _) (Array.size_push _).symm⟩

theorem addModel (t : TypeId) {v : Value} (hv : v ∈ vs)
    (shape : (s.type t).isStructured = true → v.isRecord = true) :
    Steady s vs (Engine.allocate (·.addModel t v)) fun m => [.model m] := by
  refine .allocate (fun _ _ there => .addModel t (there v hv) shape) fun h w hw => ?_
  cases List.mem_singleton.1 hw
  exact ⟨Nat.lt_irrefl _, h.index_addModel_lt t v⟩

theorem holding (h : Steady s vs act out) (sub : ∀ w ∈ ws, w ∈ vs) :
    Steady s vs (Engine.holding ws act) out := by
  intro G c st hc sound
  refine h G { c with held := ws ++ c.held } st hc ⟨sound.ok, sound.there, ?_⟩
  rw [List.append_assoc]
  exact G.uses (fun w hw => sound.there w (List.mem_append_left _ (sub w hw))) sound.uses

theorem concerning (p : Property) (h : Steady s vs act out) :
    Steady s vs (Engine.concerning p act) out :=
  fun G c st => h G c { st with options := { st.options with property := some p } }

theorem apart (h : Steady s vs act out) : Steady s vs (Engine.apart act) out :=
  fun G c st => h G c { st with options := .throwing }

theorem wrapper? {r : RecordId} (hr : .record r ∈ vs) :
    Steady s vs (Engine.wrapper? r) fun m => (m.map Value.model).toList := by
  intro G c st hc sound
  rw [wrapper?_run]
  refine ⟨.refl sound.ok, fun m' hm v hv => ?_⟩
  cases hm
  obtain ⟨m, hm, rfl⟩ := Option.map_eq_some_iff.1 (Option.mem_toList.1 hv)
  rw [hc] at hm
  exact G.wrapper sound.ok (sound.there _ (List.mem_append_left _ hr)) sound.uses hm

theorem recordOf? (m : Option ModelId) :
    Steady s (m.map Value.model).toList (Engine.recordOf? m) fun r =>
      (r.map Value.record).toList := by
  refine .heap fun h => ⟨((m.bind h.record?).map Value.record).toList,
    fun P seals there w hw => ?_, .pure fun _ hv => List.mem_append_left _ hv⟩
  obtain ⟨r, hr, rfl⟩ := Option.map_eq_some_iff.1 (Option.mem_toList.1 hw)
  obtain ⟨m', rfl, hr⟩ := Option.bind_eq_some_iff.1 hr
  exact seals.record? (there _ (by simp)) hr

theorem typeOf (m : ModelId) : Steady s vs (Engine.typeOf m) fun _ => [] :=
  .schema (.look fun _ => .pure fun _ hv => absurd hv List.not_mem_nil)

theorem snapshot {m : ModelId} (hm : .model m ∈ vs) : Steady s vs (Engine.snapshot m) ([·]) := by
  intro G c st hc sound
  subst hc
  have start : G.Sound [.model m] (c.held ++ c.schema.heldValues) st.heap :=
    sound.mono fun v hv => List.mem_append_left _ (List.mem_singleton.1 hv ▸ hm)
  obtain ⟨keeps, there⟩ := Snapshot.take_copies G c.schema none start
  refine ⟨keeps, fun a ha v hv => ?_⟩
  cases ha
  rw [List.mem_singleton.1 hv]
  exact there

/-- A new model of a type with properties may be attached to its record after other steps, since it
goes on to wrap the record. -/
theorem attachModel {t : TypeId} {r : RecordId} (hstr : (s.type t).isStructured = true)
    (act : ModelId → Engine Unit) {next : ModelId → Engine α}
    (hact : ∀ m, Steady s [.model m, .record r] (act m) fun _ => [])
    (hnext : ∀ m, Steady s [.model m] (next m) out) :
    Steady s [.record r] (Engine.allocate (·.addModel t (.record r)) >>= fun m =>
      act m >>= fun _ => Engine.changeHeap (·.setWrapper r (some m)) >>= fun _ => next m) out := by
  intro G c st hc sound
  let m := (st.heap.addModel t (.record r)).1
  let st₁ : State := { st with heap := (st.heap.addModel t (.record r)).2 }
  have added : G.Keeps st.heap st₁.heap :=
    .move sound.ok (.addModel t (sound.there _ List.mem_cons_self) fun _ => rfl)
  have held : st₁.heap.Holds (.model m) := st.heap.index_addModel_lt t _
  have sound₁ : G.Sound ([.model m] ++ ([.record r] ++ s.usedValues)) (c.held ++ s.heldValues)
      st₁.heap := (sound.keeps added).append fun v hv => by
    rw [List.mem_singleton.1 hv]
    exact G.fresh sound.ok added.grows (Nat.lt_irrefl _) held
  obtain ⟨keeps, -⟩ := hact m G c st₁ hc sound₁
  let rest : Engine α := act m >>= fun _ =>
    Engine.changeHeap (·.setWrapper r (some m)) >>= fun _ => next m
  have run : G.Keeps st₁.heap (rest c st₁).2.heap ∧
      ∀ a, (rest c st₁).1 = .ok a → ∀ v ∈ out a, G.Has (rest c st₁).2.heap v := by
    simp only [rest]
    rw [bind_run]
    rcases he : act m c st₁ with ⟨fault | u, st₂⟩ <;> rw [he] at keeps
    · exact ⟨keeps, fun _ h => by cases h⟩
    · have sound₂ := sound₁.keeps keeps
      -- whatever the entries did, the model still wraps the record
      have attach : G.Keeps st₂.heap (st₂.heap.setWrapper r (some m)) := by
        refine .move keeps.ok (.attach (sound₂.there _ (by simp)) (held.grows keeps.grows) ?_ ?_)
        · rw [keeps.grows.data_eq held]
          exact st.heap.data_addModel t _
        · rw [keeps.grows.type_eq held, st.heap.type_addModel t _]
          exact hstr
      obtain ⟨keeps', there⟩ := hnext m G c
        { st₂ with heap := st₂.heap.setWrapper r (some m) } hc ((sound₂.keeps attach).mono
          (by simp +contextual))
      exact ⟨keeps.trans (attach.trans keeps'), there⟩
  exact ⟨added.trans run.1, run.2⟩

/-- What the accessors of a property that is found refer to is kept by its type. -/
theorem property (m : ModelId) (name : String) :
    Steady s vs (Engine.property m name) (Property.usedValues s) := by
  unfold Engine.property Engine.typeOf
  simp only [bind_assoc, pure_bind]
  refine .schema (.look fun h => ?_)
  split
  · rename_i p hp
    refine .kept (p.usedValues s) (.pure fun v hv => List.mem_append_left _ hv) fun v hv => ?_
    exact Schema.used_of_type (ModelType.used_of_property? hp hv)
  · exact .raise _

end Steady

/-! ### Coercion -/

section Coercion

variable {s : Schema}

theorem denote_steady {form : Heap → Constant → Value} {cs : Constants}
    (hform : ∀ (P : Value → Prop) (h : Heap) (c : Constant), h.Sealed P → P (.model c.model) →
      P (form h c))
    (t : TypeId) (v : Value) : Steady s (v :: cs.heldValues) (denote form cs t v) ([·]) := by
  have kept : ∀ {c : Constant}, c ∈ cs.all → .model c.model ∈ cs.heldValues := fun hc =>
    List.mem_map.2 ⟨_, hc, rfl⟩
  unfold denote
  split
  · exact .pure (by simp)
  · refine .heap fun h => ?_
    rcases hd : cs.denoted? s h t v with _ | c
    · refine ⟨[], fun _ _ _ _ hw => absurd hw List.not_mem_nil, .schema ?_⟩
      rw [hd]
      exact .invalid v
    · refine ⟨[form h c], fun P seals there w hw => ?_, .schema ?_⟩
      · rw [List.mem_singleton.1 hw]
        exact hform P h c seals (there _ (List.mem_cons_of_mem _ (kept (cs.mem_of_denoted? hd))))
      · rw [hd]
        exact .pure (by simp)

theorem coerceConstant_steady (cs : Constants) (t : TypeId) (v : Value) :
    Steady s (v :: cs.heldValues) (coerceConstant cs t v) ([·]) :=
  denote_steady (fun _ _ _ seals hc => seals.data hc) t v

theorem wrapConstant_steady (cs : Constants) (t : TypeId) (v : Value) :
    Steady s (v :: cs.heldValues) (wrapConstant cs t v) ([·]) :=
  denote_steady (fun _ _ _ _ hc => hc) t v

theorem coerceScalar_steady (b : Builtin) (v : Value) :
    Steady s [v] (coerceScalar b v) ([·]) := by
  unfold coerceScalar
  split
  · exact .pure (by simp)
  · refine .options fun o => ?_
    split
    · exact .invalid v
    · split
      · rename_i w hw
        refine .scalar fun h => ?_
        cases b <;> simp only [Builtin.converted?, Option.map_eq_some_iff] at hw
        case object => cases hw
        case array => cases hw
        all_goals
          obtain ⟨x, -, rfl⟩ := hw
          trivial
      · exact .invalid v

theorem coerceInteger_steady (v : Value) : Steady s [v] (coerceInteger v) ([·]) := by
  refine .bind (coerceScalar_steady _ v) fun w => ?_
  split
  · split
    · exact .pure (by simp)
    · exact .invalid v
  · exact .pure (by simp)

theorem replaceItems_steady {action : Value → Engine Value}
    (ha : ∀ v, Steady s [v] (action v) ([·])) (a : ArrayId) (i count : Nat) :
    Steady s [.array a] (replaceItems action a i count) fun _ => [] := by
  induction count generalizing i with
  | zero => exact .pure (by simp)
  | succ count ih =>
    refine .heap fun h => ⟨[h.item a i], fun P seals there w hw => ?_, ?_⟩
    · rw [List.mem_singleton.1 hw]
      exact seals.item (there _ List.mem_cons_self) i
    · refine .bind ((ha _).mono (by simp)) fun v =>
        .bind (.changeHeap fun _ h _ there => ?_) fun _ => ?_
      · exact .setItem (there _ (by simp)) i (there v List.mem_cons_self)
      · exact (ih _).mono (by simp)

/-- The accessors of the property at hand have no part in what is done to elements. -/
theorem coerceArray_steady {stored : Property → Value → Engine Value}
    (hs : ∀ p v, Steady s [v] (stored p v) ([·])) (v : Value) :
    Steady s [v] (coerceArray stored v) ([·]) := by
  unfold coerceArray
  split
  · exact .pure (by simp)
  · exact .pure (by simp)
  · refine .options fun o => ?_
    split
    · exact .pure (by simp)
    · refine .look fun h => ?_
      refine .bind (.holding (replaceItems_steady (hs _) _ _ _) (by simp)) fun _ => ?_
      exact .pure (by simp)
  · exact .invalid v

theorem coerceBuiltin_steady {stored : Property → Value → Engine Value}
    (hs : ∀ p v, Steady s [v] (stored p v) ([·])) (b : Builtin) (v : Value) :
    Steady s [v] (coerceBuiltin stored b v) ([·]) := by
  cases b with
  | integer => exact coerceInteger_steady v
  | object => exact .pure (by simp)
  | array => exact coerceArray_steady hs v
  | string => exact coerceScalar_steady _ v
  | number => exact coerceScalar_steady _ v
  | boolean => exact coerceScalar_steady _ v
  | date => exact coerceScalar_steady _ v

end Coercion

end Engine

end Overlay
