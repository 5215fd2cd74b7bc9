import Overlay.Proofs.Engine.Sound

/-!
# What wrapping gives

Wrapping by a type whose wrapping is the standard one gives an instance of the type, with one
exception: a record that has a model attached keeps it, whatever type that is an instance of.
`Engine.liveWrapper?` is that model.

* `Engine.wrap_and_get_model_cases` : which of the two it is, when a value is wrapped and when a
  field is read;
* `Engine.wrap_keeps_other_wrapper` : the exception happens.
-/

namespace Overlay

/-- Wrapping by the type is standard and coerces nothing. -/
structure Schema.WrapsPlainly (s : Schema) (t : TypeId) : Prop where
  /-- Models are attached to records. -/
  wrap : (s.type t).wrap = .standard
  /-- Values are taken as they are. -/
  coerce : (s.type t).coerce = none

theorem Schema.derivesFrom_self (s : Schema) (t : TypeId) : s.derivesFrom t t = true := by
  simp [derivesFrom, ancestors, lineageBound, ancestorsWithin]

namespace Engine

/-- The model attached to a record while nothing but the record itself and the values in use hold
it. -/
def liveWrapper? (c : Context) (h : Heap) : Value → Option ModelId
  | .record r => h.wrapper? (.record r :: c.held ++ c.schema.heldValues) r
  | _ => none

/-- What a field of a model's record holds. -/
def fieldOf (h : Heap) (m : ModelId) (p : Property) : Value :=
  (h.record? m).elim .undefined fun r => (h.fields r).get p.storageKey

theorem fieldOf_of_data {h : Heap} {m : ModelId} {r : RecordId} (data : h.data m = .record r)
    (p : Property) : fieldOf h m p = (h.fields r).get p.storageKey := by
  rw [fieldOf, h.record?_of_data data]
  rfl

theorem fieldOf_eq {h h' : Heap} {m : ModelId} (there : h.Holds (.model m)) (grows : h.Grows h')
    (fields : ∀ r, h'.fields r = h.fields r) (p : Property) : fieldOf h' m p = fieldOf h m p := by
  unfold fieldOf Heap.record?
  rw [grows.data_eq there]
  cases (h.data m).record? with
  | none => rfl
  | some r => exact congrArg (·.get p.storageKey) (fields r)

theorem holds_fieldOf {h : Heap} {m : ModelId} (closed : h.Closed) (there : h.Holds (.model m))
    (p : Property) : h.Holds (fieldOf h m p) := by
  unfold fieldOf
  rcases record : h.record? m with _ | r
  · trivial
  · exact closed.sealed.field (closed.sealed.record? there record) p.storageKey

theorem fieldOf_insert {h : Heap} {m : ModelId} {p : Property} {r : RecordId}
    (there : h.Holds (.record r)) (record : h.record? m = some r) (v : Value) :
    fieldOf (h.insert r p.storageKey v) m p = v := by
  have same : (h.insert r p.storageKey v).record? m = some r := record
  rw [fieldOf, same, Option.elim_some, Heap.fields_insert, if_pos ⟨rfl, there⟩, Fields.get_insert,
    if_pos rfl]

theorem holding_wrapper? (c : Context) (st : State) (r : RecordId) :
    holding [.record r] (wrapper? r) c st = (.ok (liveWrapper? c st.heap (.record r)), st) := by
  unfold holding
  rw [wrapper?_run]
  rfl

/-! ### Wrapping -/

section Wrapping

variable {perform : Perform} {c : Context} {st st' : State} {t : TypeId} {m x : ModelId}
  {v : Value}

theorem construct_type
    (hp : ∀ {α : Type} (op : Operation α),
      Steady c.schema (op.given c.schema) (perform op) op.gives)
    {data : Option Value} (h : construct perform t data c st = (.ok m, st')) :
    st'.heap.type m = t := by
  have init : ∀ m, Steady c.schema [.model m] (runInit perform m (c.schema.initRules t))
      fun _ => [] := fun m =>
    runInit_steady hp m fun rule hr v hv => Schema.used_of_initRules hr hv
  obtain ⟨-, made⟩ := construct_ok rfl h
  split at made
  · -- everything after the model is added lets the heap grow
    obtain ⟨r, st₁, -, filled⟩ := made
    obtain ⟨rfl, st₂, admitted, ran⟩ := fillModel_ok rfl filled
    have grows := ((admitEntries_steady hp _ t _).grows rfl admitted).trans
      ((st₂.heap.grows_setWrapper r _).trans ((init _).grows rfl ran))
    rw [grows.type_eq (st₁.heap.index_addModel_lt t _), st₁.heap.type_addModel]
  · obtain ⟨rfl, ran⟩ := holdData_ok rfl made
    rw [((init _).grows rfl ran).type_eq (st.heap.index_addModel_lt t _), st.heap.type_addModel]

theorem create_type {depth : Nat} {data : Option Value}
    (h : Engine.perform depth (.create t data) c st = (.ok m, st')) : st'.heap.type m = t := by
  cases depth with
  | zero => cases h
  | succ depth => exact construct_type (perform_steady c.schema depth) h

/-! #### Instances -/

theorem instance?_model (t : TypeId) (m : ModelId) (c : Context) (st : State) :
    instance? t (.model m) c st =
      (.ok (if c.schema.derivesFrom (st.heap.type m) t then some m else none), st) := by
  simp only [instance?, isInstance, bind_run, schema, heap, pure_run]
  split <;> rfl

theorem coerceUnder_run (perform : Perform) (c : Context) (st : State)
    (ht : (c.schema.type t).coerce = none) (v : Value) :
    coerceUnder perform t v c st = (.ok v, st) := by
  unfold coerceUnder
  rw [bind_run]
  dsimp only [schema]
  rw [ht]
  rfl

theorem wrapUnder_standard (perform : Perform) (c : Context) (st : State)
    (ht : (c.schema.type t).wrap = .standard ∨ (c.schema.type t).wrap = .disabled) (v : Value) :
    wrapUnder perform t v c st = wrapStandard perform t v c st := by
  unfold wrapUnder
  rw [bind_run]
  dsimp only [schema]
  rcases ht with h | h <;> rw [h]

theorem wrapUnder_instance (ht : (c.schema.type t).wrap = .standard ∨
      (c.schema.type t).wrap = .disabled)
    (hm : c.schema.derivesFrom (st.heap.type m) t = true) :
    wrapUnder perform t (.model m) c st = (.ok (.model m), st) := by
  rw [wrapUnder_standard perform c st ht]
  unfold wrapStandard
  rw [bind_run, instance?_model, if_pos hm]
  rfl

/-! #### Data -/

/-- Wrapping data that a model can be made of finds the model attached to them or makes one. -/
theorem wrapData_run (perform : Perform) (c : Context) (st : State)
    (ht : (c.schema.type t).wrap = .standard) (ha : v.isArray = false)
    (shape : (c.schema.type t).isStructured = true → v.isRecord = true) :
    wrapData perform t v c st =
      match liveWrapper? c st.heap v with
      | some m => (.ok (.model m), st)
      | none => (perform (.create t (some v)) >>= fun m => pure (.model m)) c st := by
  have formed : ((c.schema.type t).isStructured && !v.isRecord) = false := by
    cases hstr : (c.schema.type t).isStructured with
    | false => rfl
    | true => simp [shape hstr]
  unfold wrapData
  rw [bind_run]
  dsimp only [schema]
  rw [if_neg (by rw [ht]; exact Bool.noConfusion), if_neg (by simp [ha]), if_neg (by simp [formed])]
  cases v with
  | record r =>
    dsimp only
    rw [bind_run, holding_wrapper?]
    cases liveWrapper? c st.heap (.record r) <;> rfl
  | _ => rfl

theorem wrapData_array (perform : Perform) (c : Context) (st : State)
    (ht : (c.schema.type t).wrap = .standard) (ha : v.isArray = true) :
    wrapData perform t v c st = (.error (.error .wrappedArray), st) := by
  unfold wrapData
  rw [bind_run]
  dsimp only [schema]
  rw [if_neg (by rw [ht]; exact Bool.noConfusion), if_pos ha]
  rfl

theorem wrapData_invalid (perform : Perform) (c : Context) (st : State)
    (ht : (c.schema.type t).wrap = .standard) (ha : v.isArray = false)
    (shape : ((c.schema.type t).isStructured && !v.isRecord) = true) :
    wrapData perform t v c st = invalid v c st := by
  unfold wrapData
  rw [bind_run]
  dsimp only [schema]
  rw [if_neg (by rw [ht]; exact Bool.noConfusion), if_neg (by simp [ha]), if_pos shape]

theorem wrapData_disabled (perform : Perform) (c : Context) (st : State)
    (ht : (c.schema.type t).wrap = .disabled) (v : Value) :
    wrapData perform t v c st = (.ok v, st) := by
  unfold wrapData
  rw [bind_run]
  dsimp only [schema]
  rw [if_pos (by rw [ht]; rfl)]
  rfl

/-- All that wrapping can do to data: leave them, refuse them, find the model attached to them or
construct one. -/
theorem wrapData_steps (perform : Perform) (c : Context) (st : State)
    (ht : (c.schema.type t).wrap = .standard ∨ (c.schema.type t).wrap = .disabled) (v : Value) :
    ((c.schema.type t).wraps = false ∧ wrapData perform t v c st = (.ok v, st)) ∨
      (∃ fault, wrapData perform t v c st = (.error fault, st)) ∨
      wrapData perform t v c st = invalid v c st ∨
      (∃ m, liveWrapper? c st.heap v = some m ∧
        wrapData perform t v c st = (.ok (.model m), st)) ∨
      (((c.schema.type t).isStructured = true → v.isRecord = true) ∧ v.isArray = false ∧
        liveWrapper? c st.heap v = none ∧ wrapData perform t v c st =
          (perform (.create t (some v)) >>= fun m => pure (.model m)) c st) := by
  by_cases disabled : (c.schema.type t).wrap = .disabled
  · exact Or.inl ⟨by rw [ModelType.wraps, disabled]; rfl, wrapData_disabled perform c st disabled v⟩
  · refine Or.inr ?_
    have standard := ht.resolve_right disabled
    by_cases ha : v.isArray = true
    · exact Or.inl ⟨.error .wrappedArray, wrapData_array perform c st standard ha⟩
    · refine Or.inr ?_
      by_cases hr : ((c.schema.type t).isStructured && !v.isRecord) = true
      · exact Or.inl (wrapData_invalid perform c st standard (Bool.eq_false_iff.2 ha) hr)
      · refine Or.inr ?_
        have shape : (c.schema.type t).isStructured = true → v.isRecord = true := by
          intro h
          rw [h] at hr
          simpa using hr
        have ha : v.isArray = false := Bool.eq_false_iff.2 ha
        rw [wrapData_run perform c st standard ha shape]
        rcases liveWrapper? c st.heap v with _ | m
        · exact Or.inr ⟨shape, ha, rfl, rfl⟩
        · exact Or.inl ⟨m, rfl, rfl⟩

theorem attached?_of_liveWrapper? {h : Heap} (hm : liveWrapper? c h v = some m) :
    ∃ r, v = .record r ∧ h.attached? r = some m := by
  cases v with
  | record r => exact ⟨r, rfl, (Option.filter_eq_some_iff.1 hm).1⟩
  | _ => cases hm

theorem liveWrapper?_eq_none {h : Heap} (free : ∀ r, v = .record r → h.attached? r = none) :
    liveWrapper? c h v = none := by
  cases hm : liveWrapper? c h v with
  | none => rfl
  | some m =>
    obtain ⟨r, hr, attached⟩ := attached?_of_liveWrapper? hm
    cases (free r hr).symm.trans attached

/-- Wrapping data gives the model attached to it, or else a new instance. -/
theorem wrapData_cases (hp : ∀ {data m st st'},
      perform (.create t data) c st = (.ok m, st') → st'.heap.type m = t)
    (ht : c.schema.WrapsPlainly t) (h : wrapData perform t v c st = (.ok (.model m), st')) :
    (liveWrapper? c st.heap v = some m ∧ st' = st) ∨
      (liveWrapper? c st.heap v = none ∧ st'.heap.type m = t) := by
  rcases wrapData_steps perform c st (Or.inl ht.wrap) v with ⟨hw, -⟩ | ⟨fault, e⟩ | e |
    ⟨m', hm, e⟩ | ⟨-, -, hn, e⟩
  · rw [ModelType.wraps, ht.wrap] at hw
    cases hw
  · cases e.symm.trans h
  · rw [e] at h
    cases invalid_ok h
  · cases e.symm.trans h
    exact Or.inl ⟨hm, rfl⟩
  · rw [e] at h
    obtain ⟨m', st₁, h₁, h⟩ := bind_ok h
    cases h
    exact Or.inr ⟨hn, hp h₁⟩

theorem wrapUnder_run (perform : Perform) (c : Context) (st : State)
    (ht : (c.schema.type t).wrap = .standard ∨ (c.schema.type t).wrap = .disabled)
    (hc : (c.schema.type t).coerce = none) (hv : v.isModel = false) :
    wrapUnder perform t v c st =
      if v.isNothing then (.ok v, st) else wrapData perform t v c st := by
  have unlike : ∀ st, instance? t v c st = (.ok none, st) := by
    intro st
    cases v <;> first | rfl | cases hv
  rw [wrapUnder_standard perform c st ht]
  unfold wrapStandard
  rw [bind_run, unlike]
  dsimp only
  rw [bind_run, coerceUnder_run perform c st hc]
  dsimp only
  split
  · rfl
  · rw [bind_run, unlike]
    cases v <;> first | rfl | cases hv

theorem wrapUnder_model_run (perform : Perform)
    (ht : (c.schema.type t).wrap = .standard ∨ (c.schema.type t).wrap = .disabled)
    (hc : (c.schema.type t).coerce = none)
    (other : c.schema.derivesFrom (st.heap.type m) t = false) :
    wrapUnder perform t (.model m) c st = (release m >>= wrapData perform t) c st := by
  have unlike : instance? t (.model m) c st = (.ok none, st) := by
    rw [instance?_model, if_neg (by simp [other])]
  rw [wrapUnder_standard perform c st ht]
  unfold wrapStandard
  rw [bind_run, unlike]
  dsimp only
  rw [bind_run, coerceUnder_run perform c st hc]
  dsimp only
  rw [if_neg (by exact Bool.false_ne_true), bind_run, unlike]

theorem release_eq (m : ModelId) (c : Context) (st : State) :
    release m c st = (.ok (st.heap.data m), { st with
      heap := (st.heap.record? m).elim st.heap (st.heap.setWrapper · none) }) := by
  simp only [release, bind_run, heap, Heap.record?]
  cases st.heap.data m <;> rfl

theorem release_run (m : ModelId) (c : Context) (st : State) :
    ∃ st₁, release m c st = (.ok (st.heap.data m), st₁) ∧
      liveWrapper? c st₁.heap (st.heap.data m) = none := by
  refine ⟨_, release_eq m c st, ?_⟩
  unfold Heap.record?
  cases st.heap.data m with
  | record r =>
    simp only [Value.record?, Option.elim_some, liveWrapper?, Heap.wrapper?, Heap.attachedIn?,
      Heap.attached?_setWrapper_none]
    rfl
  | _ => rfl

/-- What standard wrapping gives: the model attached to the record, with nothing changed, or else
an instance of the type. -/
theorem wrapUnder_cases (hp : ∀ {data m st st'},
      perform (.create t data) c st = (.ok m, st') → st'.heap.type m = t)
    (ht : c.schema.WrapsPlainly t) (h : wrapUnder perform t v c st = (.ok (.model m), st')) :
    (liveWrapper? c st.heap v = some m ∧ st' = st) ∨
      (liveWrapper? c st.heap v = none ∧ c.schema.derivesFrom (st'.heap.type m) t = true) := by
  have made : ∀ {w : Value} {st₁ : State},
      wrapData perform t w c st₁ = (.ok (.model m), st') →
      (liveWrapper? c st₁.heap w = some m ∧ st' = st₁) ∨
        (liveWrapper? c st₁.heap w = none ∧ c.schema.derivesFrom (st'.heap.type m) t = true) := by
    intro w st₁ h
    refine (wrapData_cases hp ht h).imp_right fun ⟨hn, hm⟩ => ⟨hn, ?_⟩
    rw [hm]
    exact c.schema.derivesFrom_self t
  rcases hv : v.isModel with _ | _
  · rw [wrapUnder_run perform c st (Or.inl ht.wrap) ht.coerce hv] at h
    split at h
    · cases h
      cases hv
    · exact made h
  · obtain ⟨m₀, rfl⟩ : ∃ m₀, v = .model m₀ := by
      cases v <;> first | exact ⟨_, rfl⟩ | cases hv
    by_cases hd : c.schema.derivesFrom (st.heap.type m₀) t = true
    · cases (wrapUnder_instance (Or.inl ht.wrap) hd).symm.trans h
      exact Or.inr ⟨rfl, hd⟩
    · rw [wrapUnder_model_run perform (Or.inl ht.wrap) ht.coerce (Bool.eq_false_iff.2 hd)] at h
      -- the model is taken apart, so nothing is attached to its data
      obtain ⟨data, st₁, h₁, h⟩ := bind_ok h
      obtain ⟨st₂, hr, hn⟩ := release_run m₀ c st
      rw [hr] at h₁
      cases h₁
      rcases made h with ⟨hs, -⟩ | ⟨-, hm⟩
      · cases hn.symm.trans hs
      · exact Or.inr ⟨rfl, hm⟩

theorem perform_wrap_cases {depth : Nat} (ht : c.schema.WrapsPlainly t)
    (h : Engine.perform depth (.wrap (.model t) v) c st = (.ok (.model m), st')) :
    (liveWrapper? c st.heap v = some m ∧ st' = st) ∨
      (liveWrapper? c st.heap v = none ∧ c.schema.derivesFrom (st'.heap.type m) t = true) := by
  cases depth with
  | zero => cases h
  | succ depth => exact wrapUnder_cases create_type ht h

/-! ### Reading -/

theorem freshModel_type (h : freshModel t v c st = (.ok (.model m), st')) :
    st'.heap.type m = t := by
  have type := st.heap.type_addModel t v
  rcases hv : v.isRecord with _ | _
  · rw [freshModel_other t hv] at h
    cases h
    exact type
  · obtain ⟨r, rfl⟩ := Value.exists_of_isRecord hv
    rw [freshModel_record] at h
    cases h
    split
    · exact type
    · exact type

/-- What is given for stored data: the model attached to the record, with nothing changed, or else
an instance of the type. -/
theorem represent_cases {depth : Nat} (ht : c.schema.WrapsPlainly t)
    (h : represent (Engine.perform depth) t v c st = (.ok (.model m), st')) :
    (liveWrapper? c st.heap v = some m ∧ st' = st) ∨
      (liveWrapper? c st.heap v = none ∧ c.schema.derivesFrom (st'.heap.type m) t = true) := by
  have wrapped : apart (Engine.perform depth (.wrap (.model t) v)) c st = (.ok (.model m), st') →
      (liveWrapper? c st.heap v = some m ∧ st' = st) ∨
        (liveWrapper? c st.heap v = none ∧ c.schema.derivesFrom (st'.heap.type m) t = true) := by
    intro h
    obtain ⟨o, h, ho⟩ := apart_ok h
    refine (perform_wrap_cases ht h).imp_left fun ⟨hl, he⟩ => ⟨hl, ?_⟩
    obtain ⟨heap, options, log⟩ := st
    obtain ⟨heap', options', log'⟩ := st'
    cases he
    cases ho
    rfl
  have fresh : st'.heap.type m = t → c.schema.derivesFrom (st'.heap.type m) t = true := by
    intro hm
    rw [hm]
    exact c.schema.derivesFrom_self t
  obtain ⟨s, st₁, h₁, h⟩ := bind_ok h
  cases h₁
  dsimp only at h
  split at h
  · exact wrapped h
  · split at h
    · rename_i r _ _
      obtain ⟨existing, st₁, h₁, h⟩ := bind_ok h
      rw [holding_wrapper?] at h₁
      cases h₁
      rcases he : liveWrapper? c st.heap (.record r) with _ | m'
      · rw [he] at h
        exact Or.inr ⟨rfl, fresh (freshModel_type h)⟩
      · rw [he] at h
        cases h
        exact Or.inl ⟨rfl, rfl⟩
    · rename_i hr
      split at h
      · exact wrapped h
      · refine Or.inr ⟨?_, fresh (freshModel_type h)⟩
        cases v <;> first | rfl | exact absurd rfl (hr _)

theorem readProperty_builtin (perform : Perform) (c : Context) (st : State) (m : ModelId)
    {p : Property} {b : Builtin} (hg : p.getter = none) (hp : p.type = .builtin b) :
    readProperty perform m p c st = (.ok (fieldOf st.heap m p), st) := by
  unfold readProperty holding
  rw [hg]
  dsimp only
  rw [bind_run]
  dsimp only [heap]
  rw [bind_run]
  dsimp only [schema]
  rw [hp, if_pos (by simp [Schema.wraps])]
  rfl

/-- Reading a property of a model type without an accessor: what is stored, if it wraps to itself,
or its raw form, or a model that represents it. -/
theorem readProperty_model (perform : Perform) (c : Context) (st : State) (m : ModelId)
    {p : Property} (hg : p.getter = none) (hp : p.type = .model t) :
    readProperty perform m p c st =
      if (fieldOf st.heap m p).isNothing || !c.schema.wraps p.type then
        (.ok (fieldOf st.heap m p), st)
      else if c.schema.readsRaw p.type then (.ok (st.heap.unwrap (fieldOf st.heap m p)), st)
      else
        represent perform t (fieldOf st.heap m p) { c with held := [.model m] ++ c.held } st := by
  unfold readProperty holding
  rw [hg]
  dsimp only
  rw [bind_run]
  dsimp only [heap]
  rw [bind_run]
  dsimp only [schema]
  rw [hp]
  unfold fieldOf
  split
  · rfl
  · split <;> rfl

theorem readProperty_cases {depth : Nat} {p : Property} (ht : c.schema.WrapsPlainly t)
    (hg : p.getter = none) (hpt : p.type = .model t)
    (h : readProperty (Engine.perform depth) m p c st = (.ok (.model x), st')) :
    let c' : Context := { c with held := .model m :: c.held }
    let v := fieldOf st.heap m p
    (c.schema.readsRaw p.type = true ∧ st.heap.unwrap v = .model x ∧ st' = st) ∨
      (liveWrapper? c' st.heap v = some x ∧ st' = st) ∨
      (liveWrapper? c' st.heap v = none ∧ c.schema.derivesFrom (st'.heap.type x) t = true) := by
  intro c' v
  rw [readProperty_model _ c st m hg hpt] at h
  split at h
  · rename_i hv
    have hm : fieldOf st.heap m p = .model x := Except.ok.inj (Prod.ext_iff.1 h).1
    simp [hm, Value.isNothing, Schema.wraps, hpt, ModelType.wraps, ht.wrap] at hv
  · split at h
    · obtain ⟨hm, rfl⟩ := Prod.ext_iff.1 h
      exact Or.inl ⟨‹_›, Except.ok.inj hm, rfl⟩
    · exact Or.inr (represent_cases ⟨ht.wrap, ht.coerce⟩ h)

/-! ### Looking a property up -/

theorem property_found {name : String} {p : Property}
    (hp : (c.schema.type (st.heap.type m)).property? name = some p) :
    property m name c st = (.ok p, st) := by
  unfold property typeOf
  simp only [bind_run, schema, heap, pure_run]
  rw [hp]
  rfl

theorem property_missing {name : String}
    (hp : (c.schema.type (st.heap.type m)).property? name = none) :
    property m name c st =
      (.error (.error (.unknownProperty (c.schema.type (st.heap.type m)).name name)), st) := by
  unfold property typeOf
  simp only [bind_run, schema, heap, pure_run]
  rw [hp]
  rfl

theorem property_ok {name : String} {p : Property} (h : property m name c st = (.ok p, st')) :
    (c.schema.type (st.heap.type m)).property? name = some p ∧ st' = st := by
  rcases hp : (c.schema.type (st.heap.type m)).property? name with _ | q
  · cases (property_missing hp).symm.trans h
  · cases (property_found hp).symm.trans h
    exact ⟨rfl, rfl⟩

theorem set_declared {name : String} {p : Property}
    (declared : (c.schema.type (st.heap.type m)).property? name = some p) (v : Value) :
    set m name v c st = setProperty m p v c st := by
  unfold set
  rw [bind_run, property_found declared]

theorem get_declared {name : String} {p : Property}
    (declared : (c.schema.type (st.heap.type m)).property? name = some p) :
    get m name c st = getProperty m p c st := by
  unfold get
  rw [bind_run, property_found declared]

theorem setProperty_run (m : ModelId) (p : Property) (v : Value) (c : Context) (st : State) :
    ∃ d, setProperty m p v c st = writeProperty (Engine.perform (d + 1)) m p v c st := by
  obtain ⟨d, hd⟩ := c.schema.budget_eq_add_two p.weight
  refine ⟨d, ?_⟩
  change Engine.perform (c.schema.budget p.weight) (.set m p v) c st = _
  rw [hd]
  rfl

/-- Setting a property without a setter is preparing the value and writing what comes of it. -/
theorem setProperty_wrote {p : Property} (setter : p.setter = none) (m : ModelId) (v : Value)
    (c : Context) (st : State) : ∃ d, c.schema.budget p.weight = d + 2 ∧
      setProperty m p v c st = wrote m p.storageKey
        (prepared (Engine.perform (d + 1)) p v { c with held := [.model m] ++ c.held } st) := by
  obtain ⟨d, hd⟩ := c.schema.budget_eq_add_two p.weight
  refine ⟨d, hd, ?_⟩
  rw [← writeProperty_run _ setter]
  change Engine.perform (c.schema.budget p.weight) (.set m p v) c st = _
  rw [hd]
  rfl

theorem fieldOf_wrote {m : ModelId} {p : Property} {run : Except Fault Value × State} {st' : State}
    (h : wrote m p.storageKey run = (.ok (), st')) :
    ∃ w st₁, run = (.ok w, st₁) ∧
      (fieldOf st'.heap m p = .undefined ∨ fieldOf st'.heap m p = w) ∧
        ∀ a, st'.heap.items a = st₁.heap.items a := by
  obtain ⟨fault | w, st₁⟩ := run
  · cases h
  · refine ⟨w, st₁, rfl, ?_⟩
    cases h
    dsimp only
    rcases hr : st₁.heap.record? m with _ | r
    · refine ⟨Or.inl ?_, fun _ => rfl⟩
      show fieldOf st₁.heap m p = _
      rw [fieldOf, hr]
      rfl
    · refine ⟨?_, fun _ => rfl⟩
      have record : (st₁.heap.insert r p.storageKey w).record? m = some r := hr
      rw [Option.elim_some, fieldOf, record, Option.elim_some, Heap.fields_insert]
      split
      · rw [Fields.get_insert, if_pos rfl]
        exact Or.inr rfl
      · rename_i hn
        -- a record that is not there has no fields
        have none : st₁.heap.fields r = .empty := by
          rw [Heap.fields, Array.getElem?_eq_none (Nat.le_of_not_lt fun hlt => hn ⟨rfl, hlt⟩)]
        rw [none]
        exact Or.inl rfl

theorem getProperty_run (m : ModelId) (p : Property) (c : Context) (st : State) :
    ∃ d, getProperty m p c st = readProperty (Engine.perform (d + 1)) m p c st := by
  obtain ⟨d, hd⟩ := c.schema.budget_eq_add_two p.weight
  refine ⟨d, ?_⟩
  change Engine.perform (c.schema.budget p.weight) (.get m p) c st = _
  rw [hd]
  rfl

end Wrapping

/-! ### What a program sees -/

section Results

variable {c : Context} {st st' : State} {t : TypeId} {m : ModelId} {v : Value}

/-- **What wrapping and reading give.**  Let the type wrap the standard way and coerce nothing, from
any state, with any options.

Wrapping a record that has a live model attached gives that model, of whatever type, and changes
nothing.  A model that wrapping gives otherwise is an instance of the type or of one derived from
it.  In either case, if it is such an instance, it wraps to itself wherever it still is one.

A model read from a property declared with the type is the one attached to the stored record, or
else an instance of the type or of one derived from it; only if fields of the type read raw, it
is the datum of a stored model. -/
theorem wrap_and_get_model_cases (ht : c.schema.WrapsPlainly t) :
    (∀ st v m st', wrap (.model t) v c st = (.ok (.model m), st') →
      (liveWrapper? c st.heap v = some m ∧ st' = st ∨
        liveWrapper? c st.heap v = none ∧ c.schema.derivesFrom (st'.heap.type m) t = true) ∧
      (c.schema.derivesFrom (st'.heap.type m) t = true →
        ∀ held st₁, st₁.heap.type m = st'.heap.type m →
          wrap (.model t) (.model m) ⟨c.schema, held⟩ st₁ = (.ok (.model m), st₁))) ∧
    (∀ st m name p x st', (c.schema.type (st.heap.type m)).property? name = some p →
      p.getter = none → p.type = .model t → get m name c st = (.ok (.model x), st') →
      (c.schema.readsRaw p.type = true ∧ st.heap.unwrap (fieldOf st.heap m p) = .model x ∧
        st' = st) ∨
      (liveWrapper? { c with held := .model m :: c.held } st.heap (fieldOf st.heap m p) = some x ∧
        st' = st) ∨
      (liveWrapper? { c with held := .model m :: c.held } st.heap (fieldOf st.heap m p) = none ∧
        c.schema.derivesFrom (st'.heap.type x) t = true)) := by
  constructor
  · intro st v m st' h
    refine ⟨perform_wrap_cases ht h, fun hm held st₁ hs => ?_⟩
    obtain ⟨d, hd⟩ := c.schema.budget_eq_succ 0
    change Engine.perform (c.schema.budget 0) (.wrap (.model t) (.model m)) _ _ = _
    rw [hd]
    exact wrapUnder_instance (Or.inl ht.wrap) (hs ▸ hm)
  · intro st m name p x st' hp hg hpt h
    obtain ⟨p', st₁, h₁, h⟩ := bind_ok h
    obtain ⟨hp', rfl⟩ := property_ok h₁
    cases hp.symm.trans hp'
    obtain ⟨d, hd⟩ := c.schema.budget_eq_succ p.weight
    change Engine.perform (c.schema.budget p.weight) (.get m p) c st₁ = _ at h
    rw [hd] at h
    exact readProperty_cases ht hg hpt h

end Results

/-! ### Two types and one record -/

/-- What declares one text. -/
def named (name : String) : Extension :=
  { Extension.empty with name := some name, properties := [("name", .marker .string)] }

/-- The root and two types that derive from it. -/
def petSchema : Schema :=
  let ps : List Property := [⟨"name", "name", .builtin .string, [], none, none, true⟩]
  let s := (Schema.initial.addModel (.extended .root .root (named "Cat") ps)).2
  (s.addModel (.extended .root .root (named "Dog") ps)).2

/-- One record without fields. -/
def stray : Heap := ⟨#[⟨.empty, none⟩], #[], #[]⟩

/-- Wraps the record as a cat. -/
def asCat : Except Fault Value × State :=
  wrap (.model ⟨1⟩) (.record ⟨0⟩) ⟨petSchema, [.record ⟨0⟩]⟩ ⟨stray, .throwing, []⟩

/-- Wraps it as a dog next, while the cat is in use. -/
def asDog : Except Fault Value × State :=
  wrap (.model ⟨2⟩) (.record ⟨0⟩) ⟨petSchema, [.record ⟨0⟩, .model ⟨0⟩]⟩ asCat.2

theorem wrap_and_get_model_cases_stray :
    asCat.1 = .ok (.model ⟨0⟩) ∧ petSchema.derivesFrom (asCat.2.heap.type ⟨0⟩) ⟨1⟩ = true := by
  have result : asCat.1 = .ok (.model ⟨0⟩) := by decide +kernel
  have alone : liveWrapper? ⟨petSchema, [.record ⟨0⟩]⟩ stray (.record ⟨0⟩) = none := by
    decide +kernel
  have given := (wrap_and_get_model_cases (c := ⟨petSchema, [.record ⟨0⟩]⟩) (t := ⟨1⟩) ⟨rfl, rfl⟩).1
    ⟨stray, .throwing, []⟩ (.record ⟨0⟩) ⟨0⟩ asCat.2 (Prod.ext result rfl)
  rcases given.1 with ⟨live, -⟩ | ⟨-, inst⟩
  · cases alone.symm.trans live
  · exact ⟨result, inst⟩

/-- Wrapping the cat's record as a dog gives the cat, although both types wrap plainly. -/
theorem wrap_keeps_other_wrapper :
    petSchema.Built ∧ petSchema.WrapsPlainly ⟨1⟩ ∧ petSchema.WrapsPlainly ⟨2⟩ ∧
      asCat.1 = .ok (.model ⟨0⟩) ∧ asDog.1 = .ok (.model ⟨0⟩) ∧
      petSchema.derivesFrom (asDog.2.heap.type ⟨0⟩) ⟨2⟩ = false := by
  have built : petSchema.Built :=
    (Schema.Built.initial.extend .root (named "Cat") (by decide) ⟨rfl, nofun, rfl, rfl⟩ rfl
      (by decide)).extend .root (named "Dog") (by decide) ⟨rfl, nofun, rfl, rfl⟩ rfl (by decide)
  exact ⟨built, ⟨rfl, rfl⟩, ⟨rfl, rfl⟩, by decide +kernel, by decide +kernel, by decide +kernel⟩

end Engine

end Overlay
