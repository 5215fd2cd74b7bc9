import Overlay.Proofs.Engine.Wrapping
import Overlay.Proofs.Schema.Ancestry

/-!
# Runs of enumerations

The rules of an enumeration look a value up among the constants and change nothing.  So what a
property of the type stores is a function of the value and the heap.

* `Schema.Enumerates` : the type is that of an enumeration;
* `Constants.stored?` : what a property of the type stores of a value;
* `Engine.writeProperty_stores`, `Engine.writeProperty_ok` : writing such a property;
* `Engine.readProperty_model_iff` : reading it.
-/

namespace Overlay

/-- The type is that of an enumeration with these constants. -/
structure Schema.Enumerates (s : Schema) (t : TypeId) (cs : Constants) : Prop where
  /-- Values are wrapped by the constant that they denote. -/
  wrap : (s.type t).wrap = .custom (.constants cs)
  /-- Values are coerced to the raw value of this constant. -/
  coerce : (s.type t).coerce = some (.constants cs)

/-- Without hooks, a type that wraps by constants is that of an enumeration. -/
theorem Schema.Built.enumerates {s : Schema} (hs : s.Built) {t : TypeId} {cs : Constants}
    (hw : (s.type t).wrap = .custom (.constants cs)) : s.Enumerates t cs := by
  rcases hs.made t with made | ⟨_, _, _, _, made, ⟨free, -⟩ | ⟨name, cs'⟩, -⟩
  · rw [made] at hw
    cases hw
  · rw [made] at hw
    exact absurd hw (free.wrap _)
  · rw [made] at hw
    cases hw
    exact ⟨congrArg ModelType.wrap made, congrArg ModelType.coerce made⟩

theorem Schema.Built.readsRaw_eq_false {s : Schema} (hs : s.Built) {t : TypeId} {cs : Constants}
    (hw : (s.type t).wrap = .custom (.constants cs)) : (s.type t).readsRaw = false := by
  rcases hs.made t with made | ⟨_, _, _, _, made, ⟨free, -⟩ | ⟨name, cs'⟩, -⟩
  · rw [made] at hw
    cases hw
  · rw [made] at hw
    exact absurd hw (free.wrap _)
  · rw [made]
    rfl

theorem Heap.unwrap_of_plain {h : Heap} {v : Value} (plain : v.isModel = false) :
    h.unwrap v = v := by
  cases v <;> first | rfl | cases plain

namespace Constants

variable (cs : Constants) (s : Schema) (h : Heap) (t : TypeId)

/-- The raw form of a value: the data of an instance, and else the raw value of the constant that
the value denotes. -/
def rawForm? : Value → Option Value
  | .model m => if s.derivesFrom (h.type m) t then some (h.data m) else none
  | v => if v.isNothing then some v else (cs.denoted? s h t v).map fun d => h.data d.model

/-- What is stored of a raw form: it must be nothing, or denote a constant again. -/
def checked? (v : Value) : Option Value :=
  if v.isNothing then some v else (cs.denoted? s h t v).map fun _ => h.unwrap v

/-- What a property of the type stores of a value. -/
def stored? (v : Value) : Option Value := (cs.rawForm? s h t v).bind (cs.checked? s h t)

theorem rawForm?_of_plain {v : Value} (plain : v.isModel = false) :
    cs.rawForm? s h t v =
      if v.isNothing then some v else (cs.denoted? s h t v).map fun d => h.data d.model := by
  cases v <;> first | rfl | cases plain

end Constants

namespace Engine

variable {c : Context} {st st' : State} {t : TypeId} {cs : Constants} {p : Property} {m : ModelId}
  {v w : Value}

/-! ### The rules -/

theorem denote_run (form : Heap → Constant → Value) (cs : Constants) (t : TypeId) (v : Value)
    (c : Context) (st : State) :
    denote form cs t v c st =
      if v.isNothing then (.ok v, st)
      else
        match cs.denoted? c.schema st.heap t v with
        | some d => (.ok (form st.heap d), st)
        | none => invalid v c st := by
  unfold denote
  split
  · rfl
  · simp only [bind_run, heap, schema]
    cases cs.denoted? c.schema st.heap t v <;> rfl

theorem perform_wrap_run (e : c.schema.Enumerates t cs) (d : Nat) (v : Value) :
    Engine.perform (d + 1) (.wrap (.model t) v) c st = wrapConstant cs t v c st := by
  show wrapUnder (Engine.perform d) t v c st = _
  unfold wrapUnder
  rw [bind_run]
  dsimp only [schema]
  rw [e.wrap]
  rfl

theorem perform_coerce_run (e : c.schema.Enumerates t cs) (d : Nat) (v : Value) :
    Engine.perform (d + 1) (.coerce (.model t) v) c st = coerceConstant cs t v c st := by
  show coerceUnder (Engine.perform d) t v c st = _
  unfold coerceUnder
  rw [bind_run]
  dsimp only [schema]
  rw [e.coerce]
  rfl

theorem wrap_constant (e : c.schema.Enumerates t cs) (v : Value) :
    wrap (.model t) v c st = wrapConstant cs t v c st := by
  obtain ⟨d, hd⟩ := c.schema.budget_eq_succ 0
  change Engine.perform (c.schema.budget 0) (.wrap (.model t) v) c st = _
  rw [hd]
  exact perform_wrap_run e d v

theorem coerce_constant (e : c.schema.Enumerates t cs) (v : Value) :
    coerce (.model t) v c st = coerceConstant cs t v c st := by
  obtain ⟨d, hd⟩ := c.schema.budget_eq_succ 0
  change Engine.perform (c.schema.budget 0) (.coerce (.model t) v) c st = _
  rw [hd]
  exact perform_coerce_run e d v

/-! ### Writing -/

theorem bind_of_ok {α β : Type} {act : Engine α} {next : α → Engine β} {a : α}
    (h : act c st = (.ok a, st')) : (act >>= next) c st = next a c st' := by
  rw [bind_run, h]

/-- What is given, or else that the value is invalid. -/
def found (x : Option Value) (v : Value) : Engine Value := fun c st =>
  match x with
  | some y => (.ok y, st)
  | none => invalid v c st

theorem adapt_constant (e : c.schema.Enumerates t cs) (hp : p.type = .model t) (d : Nat)
    (v : Value) :
    adapt (Engine.perform (d + 1)) p v c st =
      found (cs.rawForm? c.schema st.heap t v) v c st := by
  have coerce : ∀ v : Value, v.isModel = false →
      Engine.perform (d + 1) (.coerce p.type v) c st =
        found (cs.rawForm? c.schema st.heap t v) v c st := by
    intro v hv
    rw [hp, perform_coerce_run e, coerceConstant, denote_run, cs.rawForm?_of_plain _ _ _ hv]
    split
    · rfl
    · cases cs.denoted? c.schema st.heap t v <;> rfl
  unfold adapt
  cases v with
  | model m =>
    -- only an instance denotes a constant, and it is taken apart before the rule is asked
    simp only [bind_run, heap, schema]
    rw [hp, Schema.fits_model, Constants.rawForm?]
    by_cases hd : c.schema.derivesFrom (st.heap.type m) t = true
    · rw [if_pos hd, if_pos hd]
      rfl
    · rw [if_neg hd, if_neg hd, perform_coerce_run e, coerceConstant, denote_run]
      simp only [Constants.denoted?, if_neg hd]
      rfl
  | _ => exact coerce _ rfl

theorem settle_constant (e : c.schema.Enumerates t cs) (hp : p.type = .model t) (d : Nat)
    (v : Value) :
    settle (Engine.perform (d + 1)) p v c st =
      found (cs.checked? c.schema st.heap t v) v c st := by
  have wraps : c.schema.wraps p.type = true := by
    rw [hp, Schema.wraps, ModelType.wraps, e.wrap]
    rfl
  unfold settle
  rw [bind_run]
  dsimp only [schema]
  rw [wraps, Bool.not_true, Bool.or_false, Constants.checked?]
  split
  · rfl
  · rename_i hn
    have wrapped : holding [v] (Engine.perform (d + 1) (.wrap p.type v)) c st =
        wrapConstant cs t v { c with held := [v] ++ c.held } st := by
      rw [hp]
      exact perform_wrap_run (c := { c with held := [v] ++ c.held }) e d v
    rw [bind_run, wrapped, wrapConstant, denote_run, if_neg hn]
    dsimp only
    cases cs.denoted? c.schema st.heap t v with
    | some d => rfl
    | none =>
      -- what is invalid is recorded as such, whatever is held meanwhile
      have same : invalid v { c with held := [v] ++ c.held } st = invalid v c st := rfl
      dsimp only [Option.map_none, found]
      rw [same]
      rcases hi : invalid v c st with ⟨fault | w, st'⟩
      · rfl
      · rw [invalid_ok hi]
        rfl

/-- The heap with a value in the field of a model's property. -/
def withField (h : Heap) (m : ModelId) (p : Property) (v : Value) : Heap :=
  (h.record? m).elim h fun r => h.insert r p.storageKey v

/-- A written value, once it is in the form that is stored. -/
theorem putField_run (m : ModelId) (p : Property) (v : Value) (c : Context) (st : State) :
    (do match (← heap).record? m with
        | some r => changeHeap (·.insert r p.storageKey v)
        | none => return () : Engine Unit) c st =
      (.ok (), { st with heap := withField st.heap m p v }) := by
  rw [bind_run]
  dsimp only [heap]
  unfold withField
  cases st.heap.record? m <;> rfl

/-- What denotes a constant, in the end, is stored. -/
theorem writeProperty_stores (e : c.schema.Enumerates t cs) (hp : p.type = .model t)
    (setter : p.setter = none) (d : Nat) (stored : cs.stored? c.schema st.heap t v = some w) :
    writeProperty (Engine.perform (d + 1)) m p v c st =
      (.ok (), { st with heap := withField st.heap m p w }) := by
  obtain ⟨x, form, checked⟩ := Option.bind_eq_some_iff.1 stored
  -- both steps depend on the schema only, so the model may be held while they are done
  have adapted : ∀ (c' : Context), c'.schema = c.schema →
      concerning p (adapt (Engine.perform (d + 1)) p v) c' st = (.ok x, st) := by
    intro c' hc
    unfold concerning
    dsimp only
    rw [adapt_constant (hc ▸ e) hp d v, hc, form]
    rfl
  have settled : ∀ (c' : Context), c'.schema = c.schema →
      concerning p (settle (Engine.perform (d + 1)) p x) c' st = (.ok w, st) := by
    intro c' hc
    unfold concerning
    dsimp only
    rw [settle_constant (hc ▸ e) hp d x, hc, checked]
    rfl
  unfold writeProperty holding
  rw [setter]
  refine (bind_of_ok (adapted { c with held := [.model m] ++ c.held } rfl)).trans ?_
  refine (bind_of_ok (settled { c with held := [.model m] ++ c.held } rfl)).trans ?_
  exact putField_run m p w _ st

theorem found_ok {x : Option Value} (h : found x v c st = (.ok w, st')) :
    st'.heap = st.heap ∧ (w = .undefined ∨ x = some w) := by
  cases x with
  | some y =>
    cases h
    exact ⟨rfl, Or.inr rfl⟩
  | none =>
    have heap := invalid_heap v c st
    rw [show invalid v c st = _ from h] at heap
    exact ⟨heap, Or.inl (invalid_ok h)⟩

/-- What adapting and settling give, if they succeed, is what is stored of the value, or nothing
where an invalid value was recorded. -/
theorem settled_ok (e : c.schema.Enumerates t cs) (hp : p.type = .model t) {d : Nat} {x : Value}
    {st₁ st₂ : State} (adapted : adapt (Engine.perform (d + 1)) p v c st = (.ok x, st₁))
    (settled : settle (Engine.perform (d + 1)) p x c st₂ = (.ok w, st'))
    (same : st₂.heap = st₁.heap) :
    st'.heap = st.heap ∧ (w = .undefined ∨ cs.stored? c.schema st.heap t v = some w) := by
  obtain ⟨heap₁, form⟩ := found_ok ((adapt_constant e hp d v).symm.trans adapted)
  obtain ⟨heap₂, checked⟩ := found_ok ((settle_constant e hp d x).symm.trans settled)
  refine ⟨heap₂.trans (same.trans heap₁), checked.elim Or.inl fun checked => ?_⟩
  rw [same, heap₁] at checked
  rcases form with rfl | form
  -- an invalid value became nothing in the first step, and nothing passes the second
  · exact Or.inl (Option.some.inj checked).symm
  · exact Or.inr (Option.bind_eq_some_iff.2 ⟨x, form, checked⟩)

/-- Writing a property of the type, if it succeeds, stores what is stored of the value, or nothing
where an invalid value was recorded. -/
theorem writeProperty_ok (e : c.schema.Enumerates t cs) (hp : p.type = .model t)
    (setter : p.setter = none) {d : Nat}
    (run : writeProperty (Engine.perform (d + 1)) m p v c st = (.ok (), st')) :
    ∃ w, st'.heap = withField st.heap m p w ∧
      (w = .undefined ∨ cs.stored? c.schema st.heap t v = some w) := by
  unfold writeProperty holding at run
  rw [setter] at run
  obtain ⟨x, st₁, h₁, run⟩ := bind_ok run
  obtain ⟨w, st₂, h₂, run⟩ := bind_ok run
  obtain ⟨sta, adapted, heap₁⟩ := concerning_ok h₁
  obtain ⟨stb, settled, heap₂⟩ := concerning_ok h₂
  obtain ⟨same, form⟩ :=
    settled_ok (c := { c with held := [.model m] ++ c.held }) e hp adapted settled heap₁
  have run := (putField_run m p w _ st₂).symm.trans run
  refine ⟨w, ?_, form⟩
  rw [show st.heap = st₂.heap from (heap₂.trans same).symm]
  exact congrArg State.heap (Prod.ext_iff.1 run).2.symm

/-! ### Reading -/

theorem readProperty_run (e : c.schema.Enumerates t cs) (raw : (c.schema.type t).readsRaw = false)
    (hp : p.type = .model t) (getter : p.getter = none) (d : Nat) :
    readProperty (Engine.perform (d + 1)) m p c st =
      if (fieldOf st.heap m p).isNothing then (.ok (fieldOf st.heap m p), st)
      else apart (wrapConstant cs t (fieldOf st.heap m p)) c st := by
  have wraps : c.schema.wraps p.type = true := by
    rw [hp, Schema.wraps, ModelType.wraps, e.wrap]
    rfl
  have raw : c.schema.readsRaw p.type = false := by
    rw [hp]
    exact raw
  have custom : ((c.schema.type t).wrap != .standard) = true := by
    rw [e.wrap]
    rfl
  rw [readProperty_model _ c st m getter hp, wraps, raw, Bool.not_true, Bool.or_false]
  split
  · rfl
  · unfold represent
    rw [bind_run]
    dsimp only [schema]
    rw [custom]
    have wrapped : Engine.perform (d + 1) (.wrap (.model t) (fieldOf st.heap m p))
        { c with held := [.model m] ++ c.held } { st with options := .throwing } =
          wrapConstant cs t (fieldOf st.heap m p) c { st with options := .throwing } := by
      refine (perform_wrap_run (c := { c with held := [.model m] ++ c.held }) e d _).trans ?_
      rw [wrapConstant, denote_run, denote_run]
      rfl
    exact congrArg (fun run => (run.1, { run.2 with options := st.options })) wrapped

theorem wrapConstant_model_iff (plain : v.isModel = false) {x : ModelId} :
    wrapConstant cs t v c st = (.ok (.model x), st') ↔
      st' = st ∧ v.isNothing = false ∧
        ∃ a, cs.denoted? c.schema st.heap t v = some a ∧ a.model = x := by
  rw [wrapConstant, denote_run]
  cases hn : v.isNothing with
  | true =>
    rw [if_pos rfl]
    refine ⟨fun h => ?_, fun h => nomatch h.2.1⟩
    rw [Prod.mk.injEq, Except.ok.injEq] at h
    rw [h.1] at plain
    cases plain
  | false =>
    rw [if_neg Bool.false_ne_true]
    cases cs.denoted? c.schema st.heap t v with
    | some a => simp [and_comm, eq_comm (a := st)]
    | none => exact ⟨fun h => (nomatch invalid_ok h), fun ⟨_, _, _, hb, _⟩ => nomatch hb⟩

/-- What is stored is read as a model just if it denotes the constant that is this model. -/
theorem readProperty_model_iff (e : c.schema.Enumerates t cs)
    (raw : (c.schema.type t).readsRaw = false) (hp : p.type = .model t) (getter : p.getter = none)
    (plain : (fieldOf st.heap m p).isModel = false) (d : Nat)
    {x : ModelId} :
    readProperty (Engine.perform (d + 1)) m p c st = (.ok (.model x), st) ↔
      (fieldOf st.heap m p).isNothing = false ∧
        ∃ a, cs.denoted? c.schema st.heap t (fieldOf st.heap m p) = some a ∧ a.model = x := by
  have wrapped := fun st' => @wrapConstant_model_iff c { st with options := .throwing } st' t cs
    (fieldOf st.heap m p) plain x
  rw [readProperty_run e raw hp getter]
  split
  · rename_i hn
    refine ⟨fun h => ?_, fun h => nomatch hn.symm.trans h.1⟩
    rw [Prod.mk.injEq, Except.ok.injEq] at h
    rw [h.1] at plain
    cases plain
  · unfold apart
    dsimp only
    refine ⟨fun h => ?_, fun found => ?_⟩
    · rcases run : wrapConstant cs t (fieldOf st.heap m p) c { st with options := .throwing } with
        ⟨result, st'⟩
      rw [run] at h
      obtain rfl := (Prod.mk.inj h).1
      exact ((wrapped _).1 run).2
    · rw [(wrapped _).2 ⟨rfl, found⟩]

end Engine

end Overlay
