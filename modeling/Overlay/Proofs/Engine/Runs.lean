import Mathlib.Control.Monad.Basic
import Overlay.Engine.Calls

/-!
# Taking runs apart

A run of one computation after another that gives a result consists of two runs that do.  The
lemmas here go from the result of a composed computation to those of its parts.

* `Engine.bind_ok` : one computation after another;
* `Engine.apart_ok` : a computation apart from the options;
* `Engine.writeProperty_run` : writing a property, in what comes before the field changes and after;
* `Engine.construct_structured`, `Engine.construct_ok` : making a model, in what is chosen for its
  data and what is done to these.
-/

namespace Overlay

deriving instance DecidableEq for Fault

theorem Schema.budget_eq_succ (s : Schema) (besides : Nat) : ∃ d, s.budget besides = d + 1 :=
  ⟨s.budget besides - 1, by unfold budget; omega⟩

theorem Schema.budget_eq_add_two (s : Schema) (besides : Nat) : ∃ d, s.budget besides = d + 2 :=
  ⟨s.budget besides - 2, by unfold budget; omega⟩

namespace Engine

instance : LawfulMonad Engine :=
  LawfulMonad.mk' Engine
    (by
      intro α act
      funext c s
      show (act >>= fun a => pure a) c s = _
      rw [bind_run]
      rcases act c s with ⟨_ | _, _⟩ <;> rfl)
    (fun _ _ => rfl)
    (by
      intro α β γ act next last
      funext c s
      simp only [bind_run]
      rcases act c s with ⟨_ | _, _⟩ <;> rfl)

variable {α β : Type} {c : Context} {st st' : State}

theorem bind_ok {act : Engine α} {next : α → Engine β} {b : β}
    (h : (act >>= next) c st = (.ok b, st')) :
    ∃ a st₁, act c st = (.ok a, st₁) ∧ next a c st₁ = (.ok b, st') := by
  rw [bind_run] at h
  split at h
  · exact ⟨_, _, ‹_›, h⟩
  · cases h

theorem bind_pure_heap (act : Engine α) (f : α → β) (c : Context) (st : State) :
    ((act >>= fun a => pure (f a)) c st).2.heap = (act c st).2.heap := by
  rw [bind_run]
  rcases act c st with ⟨_ | _, _⟩ <;> rfl

theorem invalid_ok {v w : Value} (h : invalid v c st = (.ok w, st')) : w = .undefined := by
  obtain ⟨options, st₁, h₁, h⟩ := bind_ok h
  obtain ⟨heap, st₂, h₂, h⟩ := bind_ok h
  unfold signal at h
  split at h <;> cases h
  rfl

theorem invalid_heap (v : Value) (c : Context) (st : State) :
    (invalid v c st).2.heap = st.heap := by
  show (signal _ c st).2.heap = _
  unfold signal
  split <;> rfl

theorem invalid_log (v : Value) (c : Context) (st : State) : (invalid v c st).2.log = st.log := by
  show (signal _ c st).2.log = _
  unfold signal
  split <;> rfl

theorem apart_ok {act : Engine α} {a : α} (h : apart act c st = (.ok a, st')) :
    ∃ o, act c { st with options := .throwing } = (.ok a, { st' with options := o }) ∧
      st'.options = st.options := by
  unfold apart at h
  rcases he : act c { st with options := .throwing } with ⟨result, st₁⟩
  rw [he] at h
  cases h
  exact ⟨st₁.options, rfl, rfl⟩

theorem apart_heap (act : Engine α) (c : Context) (st : State) :
    (apart act c st).2.heap = (act c { st with options := .throwing }).2.heap := rfl

theorem concerning_run_ok {p : Property} {act : Engine α} {a : α}
    (h : concerning p act c st = (.ok a, st')) :
    ∃ st₁, act c { st with options := { st.options with property := some p } } = (.ok a, st₁) ∧
      st'.heap = st₁.heap ∧ st'.log = st₁.log := by
  unfold concerning at h
  rcases he : act c { st with options := { st.options with property := some p } } with ⟨result, st₁⟩
  rw [he] at h
  cases h
  exact ⟨st₁, rfl, rfl, rfl⟩

theorem concerning_ok {p : Property} {act : Engine α} {a : α}
    (h : concerning p act c st = (.ok a, st')) :
    ∃ st₁, act c { st with options := { st.options with property := some p } } = (.ok a, st₁) ∧
      st'.heap = st₁.heap := by
  obtain ⟨st₁, run, heap, -⟩ := concerning_run_ok h
  exact ⟨st₁, run, heap⟩

theorem concerning_bind_pure (p : Property) (act : Engine α) (f : α → β) :
    concerning p (act >>= fun a => pure (f a)) = concerning p act >>= fun a => pure (f a) := by
  funext c st
  rw [bind_run]
  unfold concerning
  rw [bind_run]
  rcases act c { st with options := { st.options with property := some p } } with ⟨_ | _, _⟩ <;> rfl

/-! ### Writing a property -/

theorem adapt_run (perform : Perform) {p : Property} {v : Value} (c : Context) (st : State)
    (hv : ∀ m, v ≠ .model m) : adapt perform p v c st = perform (.coerce p.type v) c st := by
  unfold adapt
  cases v with
  | model m => exact absurd rfl (hv m)
  | _ => rfl

theorem settle_builtin {perform : Perform} {p : Property} {b : Builtin} (type : p.type = .builtin b)
    (v : Value) (c : Context) (st : State) : settle perform p v c st = (.ok v, st) := by
  unfold settle
  rw [bind_run]
  dsimp only [schema]
  rw [type, if_pos (by simp [Schema.wraps])]
  rfl

/-- What a value comes to that is written under a property without a setter. -/
def prepared (perform : Perform) (p : Property) (v : Value) : Engine Value := do
  let w ← concerning p (adapt perform p v)
  concerning p (settle perform p w)

theorem stored_builtin {perform : Perform} {p : Property} {b : Builtin} (type : p.type = .builtin b)
    (v : Value) : stored perform p v = concerning p (adapt perform p v) := by
  have settled : settle perform p = pure :=
    funext fun w => funext fun c => funext fun st => settle_builtin type w c st
  unfold stored
  rw [settled, bind_pure]

theorem prepared_builtin {perform : Perform} {p : Property} {b : Builtin}
    (type : p.type = .builtin b) (v : Value) :
    prepared perform p v = concerning p (adapt perform p v) := by
  have settled : (fun w => concerning p (settle perform p w)) = pure := by
    funext w c st
    unfold concerning
    rw [settle_builtin type]
    rfl
  unfold prepared
  rw [settled, bind_pure]

/-- What was to be stored goes into the record of the model. -/
def wrote (m : ModelId) (key : String) : Except Fault Value × State → Except Fault Unit × State
  | (.ok w, st) =>
    (.ok (), { st with heap := (st.heap.record? m).elim st.heap fun r => st.heap.insert r key w })
  | (.error fault, st) => (.error fault, st)

/-- Nothing but the field changes once the value is prepared. -/
theorem writeProperty_run (perform : Perform) {p : Property} (setter : p.setter = none)
    (m : ModelId) (v : Value) (c : Context) (st : State) :
    writeProperty perform m p v c st =
      wrote m p.storageKey (prepared perform p v { c with held := [.model m] ++ c.held } st) := by
  let c' : Context := { c with held := [.model m] ++ c.held }
  show writeProperty perform m p v c st = wrote m p.storageKey (prepared perform p v c' st)
  unfold writeProperty holding prepared
  rw [setter]
  simp only [bind_run]
  rcases concerning p (adapt perform p v) c' st with ⟨fault | w, st₁⟩
  · rfl
  · dsimp only
    rcases concerning p (settle perform p w) c' st₁ with ⟨fault | u, st₂⟩
    · rfl
    · dsimp only [heap, wrote]
      cases st₂.heap.record? m <;> rfl

/-! ### Constructing -/

/-- Makes a model around a record: what is left of constructing when the record is chosen. -/
def fillModel (perform : Perform) (t : TypeId) (type : ModelType) (r : RecordId) :
    Engine ModelId := do
  let m ← allocate (·.addModel t (.record r))
  admitEntries perform m type ((← heap).fields r).entries
  changeHeap (·.setWrapper r (some m))
  runInit perform m ((← schema).initRules t)
  return m

/-- Makes a model around any data: constructing without properties. -/
def holdData (perform : Perform) (t : TypeId) (v : Value) : Engine ModelId := do
  let m ← allocate (·.addModel t v)
  runInit perform m ((← schema).initRules t)
  return m

section Constructing

variable {s : Schema} {t : TypeId} (perform : Perform)

theorem construct_barred (hc : c.schema = s) (barred : (s.type t).allowsInstances = false)
    (data : Option Value) :
    construct perform t data c st = (.error (.error (.noInstances (s.type t).name)), st) := by
  unfold construct
  rw [bind_run]
  dsimp only [schema]
  rw [hc, barred]
  rfl

theorem construct_structured (hc : c.schema = s) (allowed : (s.type t).allowsInstances = true)
    (hstr : (s.type t).isStructured = true) (data : Option Value) :
    construct perform t data c st = (recordFor data >>= fillModel perform t (s.type t)) c st := by
  unfold construct
  rw [bind_run]
  dsimp only [schema]
  rw [hc, allowed, hstr]
  rfl

theorem construct_bare (hc : c.schema = s) (allowed : (s.type t).allowsInstances = true)
    (hstr : (s.type t).isStructured = false) (data : Option Value) :
    construct perform t data c st = holdData perform t (data.getD .undefined) c st := by
  unfold construct
  rw [bind_run]
  dsimp only [schema]
  rw [hc, allowed, hstr]
  rfl

/-- What runs once the model is made does nothing without rules. -/
theorem finish_run (hc : c.schema = s) (none : s.initRules t = []) (m : ModelId) (st : State) :
    (schema >>= fun s => runInit perform m (s.initRules t) >>= fun _ => pure m) c st =
      (.ok m, st) := by
  rw [bind_run]
  dsimp only [schema]
  rw [hc, none]
  rfl

theorem fillModel_run (hc : c.schema = s) (none : s.initRules t = []) (type : ModelType)
    (r : RecordId) (st : State) :
    let m := (st.heap.addModel t (.record r)).1
    let st₁ : State := { st with heap := (st.heap.addModel t (.record r)).2 }
    fillModel perform t type r c st =
      (admitEntries perform m type (st₁.heap.fields r).entries >>= fun _ =>
        changeHeap (·.setWrapper r (some m)) >>= fun _ => pure m) c st₁ := by
  intro m st₁
  show (admitEntries perform m type (st₁.heap.fields r).entries >>= fun _ =>
    changeHeap (·.setWrapper r (some m)) >>= fun _ => schema >>= fun s =>
      runInit perform m (s.initRules t) >>= fun _ => pure m) c st₁ = _
  rw [bind_run, bind_run]
  rcases admitEntries perform m type (st₁.heap.fields r).entries c st₁ with ⟨_ | _, st₂⟩
  · rfl
  · exact finish_run perform hc none m _

theorem holdData_run (hc : c.schema = s) (none : s.initRules t = []) (v : Value) (st : State) :
    holdData perform t v c st =
      (.ok (st.heap.addModel t v).1, { st with heap := (st.heap.addModel t v).2 }) :=
  finish_run perform hc none _ { st with heap := (st.heap.addModel t v).2 }

variable {perform}

/-- A model was made of a record: it was added, the entries were put through their properties, it
was attached, and the rules ran. -/
theorem fillModel_ok {type : ModelType} {r : RecordId} {m : ModelId} (hc : c.schema = s)
    (h : fillModel perform t type r c st = (.ok m, st')) :
    let st₁ : State := { st with heap := (st.heap.addModel t (.record r)).2 }
    m = (st.heap.addModel t (.record r)).1 ∧ ∃ st₂,
      admitEntries perform m type (st₁.heap.fields r).entries c st₁ = (.ok (), st₂) ∧
        runInit perform m (s.initRules t) c
          { st₂ with heap := st₂.heap.setWrapper r (some m) } = (.ok (), st') := by
  subst hc
  obtain ⟨m', st₁, h₁, h⟩ := bind_ok h
  cases h₁
  obtain ⟨h', st₂, h₂, h⟩ := bind_ok h
  cases h₂
  obtain ⟨⟨⟩, st₂, admitted, h⟩ := bind_ok h
  obtain ⟨⟨⟩, st₃, h₃, h⟩ := bind_ok h
  cases h₃
  obtain ⟨s', st₃, h₃, h⟩ := bind_ok h
  cases h₃
  obtain ⟨⟨⟩, st₄, ran, h⟩ := bind_ok h
  cases h
  exact ⟨rfl, st₂, admitted, ran⟩

theorem holdData_ok {v : Value} {m : ModelId} (hc : c.schema = s)
    (h : holdData perform t v c st = (.ok m, st')) :
    m = (st.heap.addModel t v).1 ∧ runInit perform m (s.initRules t) c
      { st with heap := (st.heap.addModel t v).2 } = (.ok (), st') := by
  subst hc
  obtain ⟨m', st₁, h₁, h⟩ := bind_ok h
  cases h₁
  obtain ⟨s', st₂, h₂, h⟩ := bind_ok h
  cases h₂
  obtain ⟨⟨⟩, st₃, ran, h⟩ := bind_ok h
  cases h
  exact ⟨rfl, ran⟩

/-- A model is made where instances may be made: of a record that is chosen, if the type has
properties, and else around the data. -/
theorem construct_ok {data : Option Value} {m : ModelId} (hc : c.schema = s)
    (h : construct perform t data c st = (.ok m, st')) :
    (s.type t).allowsInstances = true ∧
      if (s.type t).isStructured then
        ∃ r st₁, recordFor data c st = (.ok r, st₁) ∧
          fillModel perform t (s.type t) r c st₁ = (.ok m, st')
      else holdData perform t (data.getD .undefined) c st = (.ok m, st') := by
  cases allowed : (s.type t).allowsInstances with
  | false =>
    rw [construct_barred perform hc allowed] at h
    cases h
  | true =>
    refine ⟨rfl, ?_⟩
    cases structured : (s.type t).isStructured with
    | true =>
      rw [construct_structured perform hc allowed structured] at h
      exact bind_ok h
    | false =>
      rw [construct_bare perform hc allowed structured] at h
      exact h

end Constructing

/-! ### Models of records -/

theorem wrapper?_run (r : RecordId) (c : Context) (st : State) :
    wrapper? r c st = (.ok (st.heap.wrapper? (c.held ++ c.schema.heldValues) r), st) := by
  unfold wrapper?
  rw [bind_run]
  dsimp only [heap]
  unfold Heap.wrapper? Heap.attachedIn?
  cases st.heap.attached? r <;> rfl

theorem freshModel_record (t : TypeId) (r : RecordId) (c : Context) (st : State) :
    freshModel t (.record r) c st =
      (.ok (.model (st.heap.addModel t (.record r)).1), { st with
        heap :=
          if (c.schema.type t).isStructured then
            (st.heap.addModel t (.record r)).2.setWrapper r
              (some (st.heap.addModel t (.record r)).1)
          else (st.heap.addModel t (.record r)).2 }) := by
  unfold freshModel
  rw [bind_run]
  dsimp only [allocate]
  rw [bind_run]
  dsimp only [schema]
  split <;> rfl

theorem freshModel_other (t : TypeId) {v : Value} (hv : v.isRecord = false) (c : Context)
    (st : State) :
    freshModel t v c st =
      (.ok (.model (st.heap.addModel t v).1), { st with heap := (st.heap.addModel t v).2 }) := by
  cases v <;> first | rfl | cases hv

end Engine

end Overlay
