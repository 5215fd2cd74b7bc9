import Overlay.Proofs.Engine.Stored
import Overlay.Proofs.Schema.Ancestry

/-!
# Reading what was stored

A set that succeeds leaves a value in the field that can be read again: no array and no model under
a type that wraps, and a record if the type has properties.  Reading such a value fails in one case
only: no instance of the declared type may be made, and no model of the record is in use.

A model around a model is another matter under a type without properties: taking it apart gives data
that nothing has checked, which may be an array or another model, and wrapping these may fail.

* `Engine.writeProperty_readable` : what a set leaves in the field can be read;
* `Engine.represent_readable`, `Engine.represent_bare` : how data that were checked are read, and
  how a type without properties reads any data;
* `Engine.get_after_set` : **what was stored is read without failing, and reading changes no data**,
  with the exceptions of `Engine.get_refused`.
-/

namespace Overlay

/-! ### The shape of models -/

namespace Heap

variable {s : Schema} {safe : Prop} {h h' : Heap}

/-- A model of a type with properties wraps a record. -/
def Shaped (s : Schema) (h : Heap) : Prop :=
  ∀ m, h.Holds (.model m) → (s.type (h.type m)).isStructured = true → (h.data m).isRecord = true

/-- The heap comes about from nothing, by the steps that operations take. -/
abbrev Reached (s : Schema) (h : Heap) : Prop := empty.Steps s True h

theorem Step.shaped (step : Step s safe h h') (shaped : h.Shaped s) : h'.Shaped s := by
  cases step with
  | @addModel t v hv shape =>
    intro m hm hstr
    by_cases hn : m.index = h.models.size
    · obtain rfl : m = (h.addModel t v).1 := by
        cases m
        exact congrArg ModelId.mk hn
      rw [type_addModel] at hstr
      rw [data_addModel]
      exact shape hstr
    · have old : m.index < h.models.size := by
        have : m.index < h.models.size + 1 := Nat.lt_of_lt_of_eq hm (Array.size_push _)
        omega
      have grows := (h.extends_addModel t v).grows
      rw [grows.type_eq old] at hstr
      rw [grows.data_eq old]
      exact shaped m old hstr
  | _ => exact shaped

theorem Steps.shaped (steps : Steps s safe h h') (shaped : h.Shaped s) : h'.Shaped s := by
  induction steps with
  | refl => exact shaped
  | tail _ step ih => exact step.shaped ih

namespace Reached

theorem shaped (reached : h.Reached s) : h.Shaped s :=
  Steps.shaped reached fun _ hm => absurd hm (Nat.not_lt_zero _)

theorem tied (reached : h.Reached s) : h.Tied s :=
  Steps.tied reached fun _ _ none => nomatch none

theorem closed (reached : h.Reached s) : h.Closed :=
  Steps.closed reached trivial (closed_of_cells fun _ hv => nomatch hv)

theorem perform {α : Type} {c : Context} {st : State} (reached : st.heap.Reached s) (depth : Nat)
    (op : Operation α) (hc : c.schema = s)
    (there : ∀ v ∈ op.given s ++ (c.held ++ s.heldValues), st.heap.Holds v) :
    (Engine.perform depth op c st).2.heap.Reached s :=
  reached.trans ((Engine.perform_steady s depth op).steps True c st hc fun _ =>
    ⟨reached.closed, there⟩).1

theorem create {c : Context} {st : State} (reached : st.heap.Reached s) (t : TypeId)
    (data : Option Value) (hc : c.schema = s)
    (there : ∀ v ∈ data.toList ++ (c.held ++ s.heldValues), st.heap.Holds v) :
    (Engine.create t data c st).2.heap.Reached s :=
  reached.perform _ (.create t data) hc there

theorem setProperty {c : Context} {st : State} {m : ModelId} {p : Property} {v : Value}
    (reached : st.heap.Reached s) (getter : p.getter = none) (setter : p.setter = none)
    (hc : c.schema = s)
    (there : ∀ w ∈ [.model m, v] ++ (c.held ++ s.heldValues), st.heap.Holds w) :
    (Engine.setProperty m p v c st).2.heap.Reached s := by
  have unused : p.usedValues s = [] := by simp [Property.usedValues, getter, setter]
  refine reached.perform _ (.set m p v) hc ?_
  rw [Operation.given, unused]
  exact there

end Reached

end Heap

theorem ModelType.RuleFree.plain {s : Schema} {t : TypeId} (rules : (s.type t).RuleFree)
    (wraps : (s.type t).wraps = true) : s.WrapsPlainly t := by
  refine ⟨rules.wrap.resolve_right fun disabled => ?_, rules.coerce⟩
  rw [ModelType.wraps, disabled] at wraps
  cases wraps

/-- In a field of the property, the value can be read: there are none, or data that a model can be
around. -/
def Schema.Readable (s : Schema) (p : Property) (v : Value) : Prop :=
  ∀ t, p.type = .model t → (s.type t).wraps = true → v.isNothing = true ∨
    (v.isArray = false ∧ v.isModel = false ∧
      ((s.type t).isStructured = true → v.isRecord = true))

namespace Engine

variable {c : Context} {st st' st₁ st₂ : State} {t : TypeId} {m : ModelId} {p : Property}
  {v w u : Value} {depth : Nat}

/-! ### Writing -/

section Writing

variable {perform : Perform}

/-- Wrapping data that does not fail has found them in shape. -/
theorem wrapData_ok (plain : c.schema.WrapsPlainly t)
    (h : wrapData perform t v c st = (.ok w, st')) :
    w = .undefined ∨
      (v.isArray = false ∧ ((c.schema.type t).isStructured = true → v.isRecord = true)) := by
  rcases wrapData_steps perform c st (Or.inl plain.wrap) v with ⟨hw, -⟩ | ⟨fault, e⟩ | e | ⟨m, hm, -⟩ |
    ⟨shape, ha, -, -⟩
  · rw [ModelType.wraps, plain.wrap] at hw
    cases hw
  · cases e.symm.trans h
  · rw [e] at h
    exact Or.inl (invalid_ok h)
  · obtain ⟨r, rfl, -⟩ := attached?_of_liveWrapper? hm
    exact Or.inr ⟨rfl, fun _ => rfl⟩
  · exact Or.inr ⟨ha, shape⟩

/-- So has wrapping any value: a model that is no instance is taken apart for it. -/
theorem wrapUnder_ok (plain : c.schema.WrapsPlainly t)
    (other : ∀ m, v = .model m → c.schema.derivesFrom (st.heap.type m) t = false)
    (hn : v.isNothing = false) (h : wrapUnder perform t v c st = (.ok w, st')) :
    w = .undefined ∨ ((st.heap.unwrap v).isArray = false ∧
      ((c.schema.type t).isStructured = true → (st.heap.unwrap v).isRecord = true)) := by
  cases hv : v.isModel with
  | false =>
    have raw : st.heap.unwrap v = v := by
      cases v <;> first | rfl | cases hv
    rw [wrapUnder_run perform c st (Or.inl plain.wrap) plain.coerce hv, if_neg (by simp [hn])] at h
    rw [raw]
    exact wrapData_ok plain h
  | true =>
    obtain ⟨m, rfl⟩ : ∃ m, v = .model m := by
      cases v <;> first | exact ⟨_, rfl⟩ | cases hv
    rw [wrapUnder_model_run perform (Or.inl plain.wrap) plain.coerce (other m rfl)] at h
    obtain ⟨data, st₁, h₁, h⟩ := bind_ok h
    rw [release_eq] at h₁
    cases h₁
    exact wrapData_ok (c := c) plain h

/-- What is settled on can be read, given that a model is no instance of the type and, under a type
without properties, is not around another model. -/
theorem settle_readable (depth : Nat)
    (plain : ∀ t, p.type = .model t → (c.schema.type t).wraps = true → c.schema.WrapsPlainly t)
    (held : st.heap.Holds v)
    (other : ∀ t m, p.type = .model t → v = .model m →
      c.schema.derivesFrom (st.heap.type m) t = false ∧
        ((c.schema.type t).isStructured = false → (st.heap.data m).isModel = false))
    (h : settle (Engine.perform depth) p v c st = (.ok w, st')) : c.schema.Readable p w := by
  intro t ht wraps
  obtain ⟨s, st₁, h₁, h⟩ := bind_ok h
  cases h₁
  have wraps' : c.schema.wraps p.type = true := by
    rw [ht]
    exact wraps
  rw [wraps'] at h
  split at h
  · rename_i hn
    cases h
    exact Or.inl (by simpa using hn)
  · rename_i hn
    obtain ⟨x, st₁, h₁, last⟩ := bind_ok h
    obtain ⟨d, rfl⟩ : ∃ d, depth = d + 1 := by
      cases depth with
      | zero => cases h₁
      | succ d => exact ⟨d, rfl⟩
    rw [ht] at h₁
    have grows : st.heap.Grows st₁.heap :=
      (Steady.holding (perform_steady c.schema (d + 1) (.wrap (.model t) v)) fun _ h => h).grows
        rfl h₁
    -- what the wrapping did to the heap does not change what the given value stands for
    have unwrap : st₁.heap.unwrap v = st.heap.unwrap v := by
      cases v with
      | model m => exact grows.data_eq held
      | _ => rfl
    split at last
    · cases last
      exact Or.inl rfl
    · rename_i hx
      cases last
      rw [unwrap]
      have hn : v.isNothing = false := Bool.eq_false_iff.2 fun e => hn (by simp [e])
      have wrapped : wrapUnder (Engine.perform d) t v { c with held := [v] ++ c.held } st =
          (.ok x, _) := h₁
      have plain := plain t ht wraps
      obtain ⟨ha, hr⟩ := (wrapUnder_ok (c := { c with held := [v] ++ c.held })
        ⟨plain.wrap, plain.coerce⟩ (fun m e => (other t m ht e).1) hn wrapped).resolve_left
          (by simpa using hx)
      refine Or.inr ⟨ha, ?_, hr⟩
      cases hstr : (c.schema.type t).isStructured with
      | true =>
        have record := hr hstr
        cases hu : st.heap.unwrap v <;> rw [hu] at record <;> first | rfl | cases record
      | false =>
        cases v with
        | model m => exact (other t m ht rfl).2 hstr
        | _ => rfl

/-- Adapting a value for a model type gives the data of a compatible model, or the value itself. -/
theorem adapt_model (depth : Nat) (hc : (c.schema.type t).coerce = none) (ht : p.type = .model t)
    (h : adapt (Engine.perform depth) p v c st = (.ok w, st')) :
    st' = st ∧ ((∃ m, v = .model m ∧ c.schema.derivesFrom (st.heap.type m) t = true ∧
        w = st.heap.data m) ∨
      (w = v ∧ ∀ m, v = .model m → c.schema.derivesFrom (st.heap.type m) t = false)) := by
  have coerce : ∀ {w st'}, Engine.perform depth (.coerce p.type v) c st = (.ok w, st') →
      st' = st ∧ w = v := by
    intro w st' h
    cases depth with
    | zero => cases h
    | succ depth =>
      rw [ht] at h
      cases (coerceUnder_run (Engine.perform depth) c st hc v).symm.trans h
      exact ⟨rfl, rfl⟩
  unfold adapt at h
  split at h
  · rename_i m
    obtain ⟨h', st₁, h₁, h⟩ := bind_ok h
    cases h₁
    obtain ⟨s, st₁, h₁, h⟩ := bind_ok h
    cases h₁
    rw [ht, Schema.fits_model] at h
    split at h
    · rename_i hd
      cases h
      exact ⟨rfl, Or.inl ⟨m, rfl, hd, rfl⟩⟩
    · rename_i hd
      rw [← ht] at h
      obtain ⟨rfl, rfl⟩ := coerce h
      refine ⟨rfl, Or.inr ⟨rfl, fun m' e => ?_⟩⟩
      cases e
      exact Bool.eq_false_iff.2 hd
  · rename_i hv
    obtain ⟨rfl, rfl⟩ := coerce h
    exact ⟨rfl, Or.inr ⟨rfl, fun m e => absurd e (hv m)⟩⟩

/-- What comes of adapting and settling can be read.  Under a type without properties, the value may
not be a model around a model. -/
theorem settled_readable (type : p.type = .model t) (plain : c.schema.WrapsPlainly t)
    (inherits : c.schema.Inherits) (shaped : st.heap.Shaped c.schema) (closed : st.heap.Closed)
    (held : st.heap.Holds v)
    (flat : (c.schema.type t).isStructured = false →
      ∀ x, v = .model x → (st.heap.data x).isModel = false)
    (adapted : adapt (Engine.perform depth) p v c st = (.ok u, st₁)) (same : st₂.heap = st₁.heap)
    (settled : settle (Engine.perform depth) p u c st₂ = (.ok w, st')) : c.schema.Readable p w := by
  obtain ⟨rfl, adapted⟩ := adapt_model depth plain.coerce type adapted
  refine settle_readable depth (fun t' ht' _ => ?_) ?_ (fun t' m ht' e => ?_) settled
  · cases type.symm.trans ht'
    exact plain
  · rw [same]
    rcases adapted with ⟨m, rfl, -, rfl⟩ | ⟨rfl, -⟩
    · exact closed.sealed.data held
    · exact held
  · cases type.symm.trans ht'
    rw [same]
    rcases adapted with ⟨i, rfl, inst, rfl⟩ | ⟨rfl, other⟩
    · -- the data of a compatible model are a record or, by `flat`, no model
      exfalso
      cases structured : (c.schema.type t).isStructured with
      | false =>
        have := flat structured i rfl
        rw [e] at this
        cases this
      | true =>
        have := shaped i held (inherits.isStructured_of_derivesFrom inst structured)
        rw [e] at this
        cases this
    · exact ⟨other m e, fun bare => flat bare m e⟩

/-- **What a set leaves in the field can be read.**  A model around a model may not be stored under
a type without properties. -/
theorem writeProperty_readable (hs : c.schema.Built) (rules : ∀ t, (c.schema.type t).RuleFree)
    (setter : p.setter = none) (depth : Nat) (shaped : st.heap.Shaped c.schema)
    (closed : st.heap.Closed) (held : st.heap.Holds v)
    (flat : ∀ t, p.type = .model t → (c.schema.type t).isStructured = false →
      ∀ x, v = .model x → (st.heap.data x).isModel = false)
    (h : writeProperty (Engine.perform depth) m p v c st = (.ok (), st')) :
    c.schema.Readable p (fieldOf st'.heap m p) := by
  intro t type wraps
  rw [writeProperty_run _ setter] at h
  obtain ⟨w, st₁, run, field, -⟩ := fieldOf_wrote h
  obtain ⟨u, st₂, adapted, settled⟩ := bind_ok run
  obtain ⟨st₃, adapted, same⟩ := concerning_ok adapted
  obtain ⟨st₄, settled, -⟩ := concerning_ok settled
  let st₀ : State := { st with options := { st.options with property := some p } }
  let st₂' : State := { st₂ with options := { st₂.options with property := some p } }
  replace shaped : st₀.heap.Shaped c.schema := shaped
  replace same : st₂'.heap = st₃.heap := same
  rcases field with e | e
  · rw [e]
    exact Or.inl rfl
  · rw [e]
    exact settled_readable (c := { c with held := [.model m] ++ c.held }) type ((rules t).plain wraps)
      hs.assembled.inherits shaped closed held (flat t type) adapted same settled t type wraps

end Writing

/-! ### Reading -/

/-- The run gives a result and changes no field of a record and no element of an array. -/
structure OnlyReads {α : Type} (h : Heap) (run : Except Fault α × State) : Prop where
  /-- It succeeds. -/
  result : ∃ a, run.1 = .ok a
  /-- The fields are the same. -/
  fields : ∀ r, run.2.heap.fields r = h.fields r
  /-- The elements are the same. -/
  items : ∀ a, run.2.heap.items a = h.items a

theorem OnlyReads.same {α : Type} (a : α) (st : State) : OnlyReads st.heap (.ok a, st) :=
  ⟨⟨a, rfl⟩, fun _ => rfl, fun _ => rfl⟩

theorem freshModel_onlyReads (t : TypeId) (v : Value) (c : Context) (st : State) :
    OnlyReads st.heap (freshModel t v c st) := by
  cases hv : v.isRecord with
  | false =>
    rw [freshModel_other t hv]
    exact ⟨⟨_, rfl⟩, fun _ => rfl, fun _ => rfl⟩
  | true =>
    obtain ⟨r, rfl⟩ := Value.exists_of_isRecord hv
    rw [freshModel_record]
    refine ⟨⟨_, rfl⟩, fun r' => ?_, fun a => ?_⟩
    · dsimp only
      split <;> simp
    · dsimp only
      split <;> simp

/-- Reading fails because no instance of the type may be made and the record has no live model. -/
def RefusesInstance (t : TypeId) (v : Value) (c : Context) (st : State)
    (run : Except Fault Value × State) : Prop :=
  (c.schema.type t).allowsInstances = false ∧ liveWrapper? c st.heap v = none ∧
    run = (.error (.error (.noInstances (c.schema.type t).name)), st)

theorem create_barred (depth : Nat) (data : Option Value)
    (barred : (c.schema.type t).allowsInstances = false) :
    Engine.perform (depth + 1) (.create t data) c st =
      (.error (.error (.noInstances (c.schema.type t).name)), st) :=
  construct_barred (Engine.perform depth) rfl barred data

/-- Where no instance may be made, wrapping finds the model of the record or is refused. -/
theorem wrap_barred_cases (depth : Nat) (rules : (c.schema.type t).RuleFree)
    (wraps : (c.schema.type t).wraps = true) (hn : v.isNothing = false) (ha : v.isArray = false)
    (hm : v.isModel = false) (shape : (c.schema.type t).isStructured = true → v.isRecord = true)
    (barred : (c.schema.type t).allowsInstances = false) :
    OnlyReads st.heap (apart (Engine.perform (depth + 2) (.wrap (.model t) v)) c st) ∨
      RefusesInstance t v c st (apart (Engine.perform (depth + 2) (.wrap (.model t) v)) c st) := by
  have standard := (rules.plain wraps).wrap
  let st₁ : State := { st with options := .throwing }
  have run := wrapUnder_run (Engine.perform (depth + 1)) c st₁ rules.wrap rules.coerce hm
  rw [if_neg (by simp [hn]), wrapData_run _ c st₁ standard ha shape] at run
  have ended : ∀ result, wrapUnder (Engine.perform (depth + 1)) t v c st₁ = (result, st₁) →
      apart (Engine.perform (depth + 2) (.wrap (.model t) v)) c st = (result, st) := by
    intro result ends
    change Engine.perform (depth + 2) (.wrap (.model t) v) c st₁ = (result, st₁) at ends
    unfold apart
    dsimp only
    rw [show { st with options := Options.throwing } = st₁ from rfl, ends]
  unfold RefusesInstance
  cases live : liveWrapper? c st.heap v with
  | some m =>
    rw [show liveWrapper? c st₁.heap v = some m from live] at run
    rw [ended _ run]
    exact Or.inl (.same (Value.model m) st)
  | none =>
    rw [show liveWrapper? c st₁.heap v = none from live] at run
    dsimp only at run
    rw [bind_run, create_barred depth (some v) barred] at run
    rw [ended _ run]
    exact Or.inr ⟨barred, rfl, rfl⟩

/-- Data that were checked get the model of their record, or a new one if one may be made. -/
theorem represent_run (perform : Perform) (c : Context) (st : State)
    (standard : (c.schema.type t).wrap = .standard) (hn : v.isNothing = false)
    (ha : v.isArray = false) (hm : v.isModel = false)
    (shape : (c.schema.type t).isStructured = true → v.isRecord = true) :
    represent perform t v c st =
      if (c.schema.type t).allowsInstances then
        match liveWrapper? c st.heap v with
        | some m => (.ok (.model m), st)
        | none => freshModel t v c st
      else apart (perform (.wrap (.model t) v)) c st := by
  unfold represent
  rw [bind_run]
  dsimp only [schema]
  rw [standard, ha, hm, hn]
  cases (c.schema.type t).allowsInstances with
  | false => rfl
  | true =>
    rw [if_neg (by decide), if_pos rfl]
    cases v with
    | record r =>
      dsimp only
      rw [bind_run, holding_wrapper?]
      dsimp only
      cases liveWrapper? c st.heap (.record r) <;> rfl
    | _ =>
      dsimp only
      rw [if_neg fun hstr => nomatch shape hstr]
      rfl

/-- How data that were checked are read. -/
theorem represent_readable (depth : Nat) (rules : (c.schema.type t).RuleFree)
    (wraps : (c.schema.type t).wraps = true) (hn : v.isNothing = false) (ha : v.isArray = false)
    (hm : v.isModel = false) (shape : (c.schema.type t).isStructured = true → v.isRecord = true) :
    OnlyReads st.heap (represent (Engine.perform (depth + 2)) t v c st) ∨
      RefusesInstance t v c st (represent (Engine.perform (depth + 2)) t v c st) := by
  rw [represent_run _ c st (rules.plain wraps).wrap hn ha hm shape]
  cases allowed : (c.schema.type t).allowsInstances with
  | false => exact wrap_barred_cases depth rules wraps hn ha hm shape allowed
  | true =>
    refine Or.inl ?_
    rw [if_pos rfl]
    cases liveWrapper? c st.heap v with
    | some m' => exact .same _ st
    | none => exact freshModel_onlyReads t v c st

/-! ### Data that nothing has checked -/

/-- Reading fails because of what stands in the field: an array or a model around one, or a model
where no instance of the type may be made.  It changes no field of a record and no element of an
array. -/
structure RefusesUnchecked {α : Type} (s : Schema) (t : TypeId) (v : Value) (h : Heap)
    (run : Except Fault α × State) : Prop where
  /-- Arrays are not wrapped, and where no instance may be made, no model is. -/
  reason : ((h.unwrap v).isArray = true ∧ run.1 = .error (.error .wrappedArray)) ∨
    (v.isModel = true ∧ (s.type t).allowsInstances = false ∧
      run.1 = .error (.error (.noInstances (s.type t).name)))
  /-- The fields are the same. -/
  fields : ∀ r, run.2.heap.fields r = h.fields r
  /-- The elements are the same. -/
  items : ∀ a, run.2.heap.items a = h.items a

section Unchecked

variable (rules : ∀ t, (c.schema.type t).RuleFree) (wraps : (c.schema.type t).wraps = true)
  (bare : (c.schema.type t).isStructured = false)

include rules bare

theorem create_bare_run (depth : Nat) (v : Value)
    (allowed : (c.schema.type t).allowsInstances = true) :
    Engine.perform (depth + 1) (.create t (some v)) c st =
      (.ok (st.heap.addModel t v).1, { st with heap := (st.heap.addModel t v).2 }) := by
  change construct (Engine.perform depth) t (some v) c st = _
  rw [construct_bare _ rfl allowed bare]
  exact holdData_run _ rfl (Schema.initRules_of_free rules t) v st

include wraps

/-- Data of any kind are wrapped by a type without properties, unless they are an array or no
instance may be made. -/
theorem wrapData_bare (depth : Nat) (v : Value) (st : State) :
    OnlyReads st.heap (wrapData (Engine.perform (depth + 1)) t v c st) ∨
      v.isArray = true ∧
        wrapData (Engine.perform (depth + 1)) t v c st = (.error (.error .wrappedArray), st) ∨
      (c.schema.type t).allowsInstances = false ∧ wrapData (Engine.perform (depth + 1)) t v c st =
        (.error (.error (.noInstances (c.schema.type t).name)), st) := by
  have standard := ((rules t).plain wraps).wrap
  cases ha : v.isArray with
  | true => exact Or.inr (Or.inl ⟨rfl, wrapData_array _ c st standard ha⟩)
  | false =>
    rw [wrapData_run _ c st standard ha fun structured => absurd structured (by simp [bare])]
    cases liveWrapper? c st.heap v with
    | some m => exact Or.inl (.same _ st)
    | none =>
      dsimp only
      rw [bind_run]
      cases allowed : (c.schema.type t).allowsInstances with
      | true =>
        rw [create_bare_run rules bare depth v allowed]
        exact Or.inl ⟨⟨_, rfl⟩, fun _ => rfl, fun _ => rfl⟩
      | false =>
        rw [create_barred depth (some v) allowed]
        exact Or.inr (Or.inr ⟨rfl, rfl⟩)

/-- How an array or a model is wrapped by a type without properties. -/
theorem wrapUnder_bare (depth : Nat) (raw : v.isArray = true ∨ v.isModel = true) :
    OnlyReads st.heap (wrapUnder (Engine.perform (depth + 1)) t v c st) ∨
      RefusesUnchecked c.schema t v st.heap (wrapUnder (Engine.perform (depth + 1)) t v c st) := by
  have plain := (rules t).plain wraps
  cases v with
  | array a =>
    refine Or.inr ?_
    rw [wrapUnder_run _ c st (Or.inl plain.wrap) plain.coerce rfl,
      if_neg (by exact Bool.false_ne_true), wrapData_array _ c st plain.wrap rfl]
    exact ⟨Or.inl ⟨rfl, rfl⟩, fun _ => rfl, fun _ => rfl⟩
  | model m =>
    cases inst : c.schema.derivesFrom (st.heap.type m) t with
    | true =>
      rw [wrapUnder_instance (Or.inl plain.wrap) inst]
      exact Or.inl (.same _ st)
    | false =>
      rw [wrapUnder_model_run _ (Or.inl plain.wrap) plain.coerce inst, bind_run, release_eq]
      dsimp only
      -- the record may let go of the model, which leaves its fields
      let st₁ : State := { st with
        heap := (st.heap.record? m).elim st.heap (st.heap.setWrapper · none) }
      have fields : ∀ r, st₁.heap.fields r = st.heap.fields r := by
        intro r
        dsimp only [st₁]
        cases st.heap.record? m with
        | none => rfl
        | some r' => exact Heap.fields_setWrapper ..
      have items : ∀ a, st₁.heap.items a = st.heap.items a := by
        intro a
        dsimp only [st₁]
        cases st.heap.record? m <;> rfl
      rcases wrapData_bare rules wraps bare depth (st.heap.data m) st₁ with reads | ⟨ha, run⟩ |
        ⟨barred, run⟩
      · exact Or.inl ⟨reads.result, fun r => (reads.fields r).trans (fields r), fun a =>
          (reads.items a).trans (items a)⟩
      · rw [run]
        exact Or.inr ⟨Or.inl ⟨ha, rfl⟩, fields, items⟩
      · rw [run]
        exact Or.inr ⟨Or.inr ⟨rfl, barred, rfl⟩, fields, items⟩
  | _ => rcases raw with raw | raw <;> cases raw

theorem represent_unchecked (depth : Nat) (raw : v.isArray = true ∨ v.isModel = true) :
    OnlyReads st.heap (represent (Engine.perform (depth + 2)) t v c st) ∨
      RefusesUnchecked c.schema t v st.heap (represent (Engine.perform (depth + 2)) t v c st) := by
  have run : represent (Engine.perform (depth + 2)) t v c st =
      apart (wrapUnder (Engine.perform (depth + 1)) t v) c st := by
    unfold represent
    rw [bind_run]
    dsimp only [schema]
    rw [if_pos (by rcases raw with raw | raw <;> simp [raw])]
    rfl
  let st₁ : State := { st with options := .throwing }
  have wrapped : OnlyReads st₁.heap (wrapUnder (Engine.perform (depth + 1)) t v c st₁) ∨
      RefusesUnchecked c.schema t v st₁.heap (wrapUnder (Engine.perform (depth + 1)) t v c st₁) :=
    wrapUnder_bare rules wraps bare depth raw
  rw [run]
  exact wrapped.imp (fun reads => ⟨reads.result, reads.fields, reads.items⟩)
    fun refuses => ⟨refuses.reason, refuses.fields, refuses.items⟩

/-- A type without properties reads data of any kind. -/
theorem represent_bare (depth : Nat) (hn : v.isNothing = false) :
    OnlyReads st.heap (represent (Engine.perform (depth + 2)) t v c st) ∨
      RefusesInstance t v c st (represent (Engine.perform (depth + 2)) t v c st) ∨
      RefusesUnchecked c.schema t v st.heap (represent (Engine.perform (depth + 2)) t v c st) := by
  by_cases raw : v.isArray = true ∨ v.isModel = true
  · exact (represent_unchecked rules wraps bare depth raw).imp_right Or.inr
  · rw [not_or, Bool.not_eq_true, Bool.not_eq_true] at raw
    refine (represent_readable depth (rules t) wraps hn raw.1 raw.2 fun structured => ?_).imp_right
      Or.inl
    cases bare.symm.trans structured

end Unchecked

/-! ### Reading a field -/

/-- Reading gives what stands in the field or what this is around, unless the type of the property
represents it. -/
theorem readProperty_or_represent (perform : Perform) (c : Context) (st : State) (m : ModelId)
    (plain : p.PlainBelow c.schema.models.size) :
    (∃ w, readProperty perform m p c st = (.ok w, st)) ∨
      ∃ t, p.type = .model t ∧ (c.schema.type t).wraps = true ∧ c.schema.readsRaw p.type = false ∧
        (fieldOf st.heap m p).isNothing = false ∧ readProperty perform m p c st =
          represent perform t (fieldOf st.heap m p) { c with held := [.model m] ++ c.held } st := by
  rcases ht : p.type with b | t | a
  · exact Or.inl ⟨_, readProperty_builtin _ c st m plain.getter ht⟩
  · rw [readProperty_model _ c st m plain.getter ht, ht]
    split
    · exact Or.inl ⟨_, rfl⟩
    · rename_i h
      obtain ⟨hn, hw⟩ := not_or.1 (mt Bool.or_eq_true_iff.2 h)
      have wraps : (c.schema.type t).wraps = true := by simpa [Schema.wraps] using hw
      split
      · exact Or.inl ⟨_, rfl⟩
      · rename_i raw
        exact Or.inr ⟨t, rfl, wraps, Bool.eq_false_iff.2 raw, Bool.eq_false_iff.2 hn, rfl⟩
  · exact (plain.types _ (List.mem_cons.2 (Or.inl ht.symm))).elim

/-- **What was stored is read without failing, and reading changes no data.**  Let a schema be built
without hooks, and let a value be set for a property with success: by a program, or by one of the
sets that constructing and wrapping consist of, at any depth, in any heap that operations lead to
and with any options.  Whenever a model has in the field of the property what that set put there,
whatever became of the wrappers in the meantime, getting the property gives a result and leaves all
fields and elements as they are.

It fails in two cases only, both under a declared type that wraps and is not read raw.  If no
instance of this type may be made and no model of the stored record is in use, nothing changes at
all.  If the type has no properties and the value that was set was a model around a model, an array
or another model may stand in the field; then it fails where this is or holds an array, or where no
instance may be made, and it still leaves all fields and elements as they are. -/
theorem get_after_set {s : Schema} (hs : s.Built) (rules : ∀ t, (s.type t).RuleFree)
    (hc : c.schema = s) (reached : st.heap.Reached s) (held : st.heap.Holds v)
    (depth : Nat) (set : Engine.perform depth (.set m p v) c st = (.ok (), st'))
    {c₂ : Context} {st₂ : State} {m₂ : ModelId} {name : String} (hc₂ : c₂.schema = s)
    (declared : (s.type (st₂.heap.type m₂)).property? name = some p)
    (still : fieldOf st₂.heap m₂ p = fieldOf st'.heap m p) :
    OnlyReads st₂.heap (get m₂ name c₂ st₂) ∨
      ∃ t, p.type = .model t ∧ (s.type t).wraps = true ∧ s.readsRaw p.type = false ∧
        (RefusesInstance t (fieldOf st₂.heap m₂ p) { c₂ with held := [Value.model m₂] ++ c₂.held } st₂
            (get m₂ name c₂ st₂) ∨
          (s.type t).isStructured = false ∧ (∃ x, v = .model x ∧ (st.heap.data x).isModel = true) ∧
            RefusesUnchecked s t (fieldOf st₂.heap m₂ p) st₂.heap (get m₂ name c₂ st₂)) := by
  subst hc
  have plain := hs.plainBelow_size declared
  obtain ⟨d, rfl⟩ : ∃ d, depth = d + 1 := by
    cases depth with
    | zero => cases set
    | succ d => exact ⟨d, rfl⟩
  obtain ⟨d₂, hd⟩ : ∃ d₂, c₂.schema.budget p.weight = d₂ + 3 :=
    ⟨c₂.schema.budget p.weight - 3, by unfold Schema.budget; omega⟩
  have run : get m₂ name c₂ st₂ = readProperty (Engine.perform (d₂ + 2)) m₂ p c₂ st₂ := by
    unfold get
    rw [bind_run, property_found (hc₂ ▸ declared)]
    change Engine.perform (c₂.schema.budget p.weight) (.get m₂ p) c₂ st₂ = _
    rw [hd]
    rfl
  rw [run]
  rcases readProperty_or_represent (Engine.perform (d₂ + 2)) c₂ st₂ m₂ (hc₂ ▸ plain) with
    ⟨w, e⟩ | ⟨t, ht, wraps, raw, hn, e⟩
  · rw [e]
    exact Or.inl (.same w st₂)
  rw [e]
  have shown : (c.schema.type t).wraps = true ∧ c.schema.readsRaw p.type = false :=
    ⟨hc₂ ▸ wraps, hc₂ ▸ raw⟩
  have rules₂ : ∀ t, (c₂.schema.type t).RuleFree := hc₂ ▸ rules
  let c' : Context := { c₂ with held := [.model m₂] ++ c₂.held }
  -- a bare type around another model: the one case where what was written need not be readable
  by_cases nested : (c.schema.type t).isStructured = false ∧
      ∃ x, v = .model x ∧ (st.heap.data x).isModel = true
  · have bare : (c₂.schema.type t).isStructured = false := hc₂ ▸ nested.1
    refine (represent_bare (c := c') rules₂ wraps bare d₂ hn).imp_right fun refuses => ?_
    exact ⟨t, ht, shown.1, shown.2, refuses.imp_right fun refused =>
      ⟨nested.1, nested.2, hc₂ ▸ refused⟩⟩
  · have readable : c₂.schema.Readable p (fieldOf st₂.heap m₂ p) := by
      rw [hc₂, still]
      refine writeProperty_readable hs rules plain.setter d reached.shaped reached.closed held ?_ set
      intro t' ht' bare x e
      cases ht.symm.trans ht'
      exact Bool.eq_false_iff.2 fun around => nested ⟨bare, x, e, around⟩
    obtain ⟨ha, hm, shape⟩ := (readable t ht wraps).resolve_left (by simp [hn])
    exact (represent_readable (c := c') d₂ (rules₂ t) wraps hn ha hm shape).imp_right fun refused =>
      ⟨t, ht, shown.1, shown.2, Or.inl refused⟩

/-! ### Shapes that cannot be made -/

/-- What declares a shape; only what derives from it can be made. -/
def shapes : Extension :=
  { Extension.empty with
    name := some "Shape", properties := [("n", .marker .number)], allowsInstances := some false }

/-- What declares a frame with a shape in it. -/
def frames : Extension :=
  { Extension.empty with
    name := some "Frame", properties := [("shape", .type (.model ⟨1⟩))] }

/-- The shape in a frame. -/
def framed : Property := ⟨"shape", "shape", .model ⟨1⟩, [], none, none, true⟩

/-- The root, shapes, circles that are shapes, and frames. -/
def frameSchema : Schema :=
  let s := (Schema.initial.addModel (.extended .root .root shapes
    [⟨"n", "n", .builtin .number, [], none, none, true⟩])).2
  let s := (s.addModel (.extended ⟨1⟩ (s.type ⟨1⟩)
    { Extension.empty with name := some "Circle" } [])).2
  (s.addModel (.extended .root .root frames [framed])).2

theorem frameSchema_built : frameSchema.Built :=
  ((Schema.Built.initial.extend .root shapes (by decide) ⟨rfl, nofun, rfl, rfl⟩ rfl
    (by decide)).extend ⟨1⟩ { Extension.empty with name := some "Circle" } (by decide)
      ⟨rfl, nofun, rfl, rfl⟩ rfl (by decide)).extend .root frames (by decide)
        ⟨rfl, nofun, rfl, rfl⟩ rfl (by decide)

theorem frameSchema_ruleFree : ∀ t, (frameSchema.type t).RuleFree :=
  frameSchema.ruleFree_of_listed (by decide +kernel)

/-- A circle, made of nothing. -/
def makeCircle : Except Fault ModelId × State :=
  (Operation.create ⟨2⟩ none).run ⟨frameSchema, []⟩ ⟨.empty, .throwing, []⟩

/-- A frame, made next. -/
def makeFrame : Except Fault ModelId × State :=
  (Operation.create ⟨3⟩ none).run ⟨frameSchema, [.model ⟨0⟩]⟩ makeCircle.2

/-- The circle is put into the frame. -/
def fillFrame : Except Fault Unit × State :=
  setProperty ⟨1⟩ framed (.model ⟨0⟩) ⟨frameSchema, [.model ⟨0⟩, .model ⟨1⟩]⟩ makeFrame.2

/-- The shape is read from the frame, while these models are in use. -/
def readFrame (held : List Value) : Except Fault Value × State :=
  get ⟨1⟩ "shape" ⟨frameSchema, held⟩ fillFrame.2

theorem makeFrame_reached : makeFrame.2.heap.Reached frameSchema := by
  have nothing : frameSchema.heldValues = [] := by decide +kernel
  have circle : makeCircle.2.heap.Reached frameSchema :=
    Heap.Reached.perform (.refl : Heap.empty.Reached frameSchema) _ _ rfl (by
      rw [nothing]
      exact fun _ hv => absurd hv List.not_mem_nil)
  refine circle.perform _ _ rfl fun v hv => ?_
  rw [nothing] at hv
  obtain rfl : v = .model ⟨0⟩ := List.mem_singleton.1 hv
  decide +kernel

/-- While the circle is in use, it is read from the frame. -/
theorem get_after_set_circle :
    (readFrame [.model ⟨0⟩, .model ⟨1⟩]).1 = .ok (.model ⟨0⟩) ∧
      OnlyReads fillFrame.2.heap (readFrame [.model ⟨0⟩, .model ⟨1⟩]) := by
  have result : (readFrame [.model ⟨0⟩, .model ⟨1⟩]).1 = .ok (.model ⟨0⟩) := by decide +kernel
  have filled : Engine.perform (frameSchema.budget framed.weight)
      (.set ⟨1⟩ framed (.model ⟨0⟩)) ⟨frameSchema, [.model ⟨0⟩, .model ⟨1⟩]⟩ makeFrame.2 =
        (.ok (), fillFrame.2) :=
    Prod.ext (by decide +kernel) rfl
  refine ⟨result, ?_⟩
  let c : Context := ⟨frameSchema, [.model ⟨0⟩, .model ⟨1⟩]⟩
  have declared : (frameSchema.type (fillFrame.2.heap.type ⟨1⟩)).property? "shape" = some framed := by
    decide +kernel
  rcases get_after_set frameSchema_built frameSchema_ruleFree (show c.schema = frameSchema from rfl)
    makeFrame_reached (by decide +kernel) _ filled (show c.schema = frameSchema from rfl) declared rfl
    with reads | ⟨t, -, -, -, refused | ⟨-, -, refused⟩⟩
  · exact reads
  · cases result.symm.trans (congrArg Prod.fst refused.2.2)
  · rcases refused.reason with ⟨-, fails⟩ | ⟨-, -, fails⟩ <;> cases result.symm.trans fails

/-- What is kept is the record of the circle. -/
example : fieldOf fillFrame.2.heap ⟨1⟩ framed = .record ⟨0⟩ := by decide +kernel

/-! ### Sleeves in sleeves -/

/-- What declares a sleeve, which has no properties. -/
def sleeves : Extension := { Extension.empty with name := some "Sleeve" }

/-- What declares a chest with a sleeve in it. -/
def chests : Extension :=
  { Extension.empty with
    name := some "Chest", properties := [("sleeve", .type (.model ⟨1⟩))] }

/-- The sleeve in a chest. -/
def sleeved : Property := ⟨"sleeve", "sleeve", .model ⟨1⟩, [], none, none, true⟩

/-- The root, sleeves and chests. -/
def chestSchema : Schema :=
  let s := (Schema.initial.addModel (.extended .root .root sleeves [])).2
  (s.addModel (.extended .root .root chests [sleeved])).2

theorem chestSchema_built : chestSchema.Built :=
  (Schema.Built.initial.extend .root sleeves (by decide) ⟨rfl, nofun, rfl, rfl⟩ rfl
    (by decide)).extend .root chests (by decide) ⟨rfl, nofun, rfl, rfl⟩ rfl (by decide)

theorem chestSchema_ruleFree : ∀ t, (chestSchema.type t).RuleFree :=
  chestSchema.ruleFree_of_listed (by decide +kernel)

/-- A sleeve, made of an array. -/
def makeSleeve : Except Fault ModelId × State :=
  (Operation.create ⟨1⟩ (some (.array ⟨0⟩))).run ⟨chestSchema, []⟩
    ⟨(Heap.empty.addArray [.null]).2, .throwing, []⟩

/-- A sleeve, made of the first one. -/
def makeOuter : Except Fault ModelId × State :=
  (Operation.create ⟨1⟩ (some (.model ⟨0⟩))).run ⟨chestSchema, [.model ⟨0⟩]⟩ makeSleeve.2

/-- A chest, made next. -/
def makeChest : Except Fault ModelId × State :=
  (Operation.create ⟨2⟩ none).run ⟨chestSchema, [.model ⟨1⟩]⟩ makeOuter.2

/-- The outer sleeve is put into the chest. -/
def fillChest : Except Fault Unit × State :=
  setProperty ⟨2⟩ sleeved (.model ⟨1⟩) ⟨chestSchema, [.model ⟨1⟩, .model ⟨2⟩]⟩ makeChest.2

/-- The sleeve is read from the chest. -/
def readChest : Except Fault Value × State :=
  get ⟨2⟩ "sleeve" ⟨chestSchema, [.model ⟨1⟩, .model ⟨2⟩]⟩ fillChest.2

/-- Once the circle is let go, reading the frame is refused.  So is reading the chest, as an array
was stored there when the sleeves were taken off. -/
theorem get_refused :
    (frameSchema.Built ∧ (∀ t, (frameSchema.type t).RuleFree) ∧
      makeCircle.1 = .ok ⟨0⟩ ∧ makeFrame.1 = .ok ⟨1⟩ ∧ fillFrame.1 = .ok () ∧
      (readFrame [.model ⟨1⟩]).1 = .error (.error (.noInstances "Shape"))) ∧
    chestSchema.Built ∧ (∀ t, (chestSchema.type t).RuleFree) ∧
      makeSleeve.1 = .ok ⟨0⟩ ∧ makeOuter.1 = .ok ⟨1⟩ ∧ makeChest.1 = .ok ⟨2⟩ ∧
      fillChest.1 = .ok () ∧ readChest.1 = .error (.error .wrappedArray) :=
  ⟨⟨frameSchema_built, frameSchema_ruleFree, by decide +kernel, by decide +kernel,
    by decide +kernel, by decide +kernel⟩,
   chestSchema_built, chestSchema_ruleFree, by decide +kernel, by decide +kernel,
    by decide +kernel, by decide +kernel, by decide +kernel⟩

end Engine

end Overlay
