import Overlay.Proofs.Engine.Outcomes
import Overlay.Proofs.Engine.Reassigning
import Overlay.Proofs.Heap.Vetted

/-!
# Checking data again

What has been checked is in its final form: putting it through its type once more finds nothing to
object to and nothing to replace, with any options, so that no field and no element changes.

* `Engine.Quiet` : a run that leaves the data and the options as they are;
* `Engine.Renews` : what operations make of checked data;
* `Engine.wrap_vetted` : **wrapping a checked record gives a model and changes no data.**
-/

namespace Overlay

namespace Engine

/-- Fields, elements and options are the same, and models are still there. -/
structure Unmoved (st st' : State) : Prop where
  /-- No model changes. -/
  grows : st.heap.Grows st'.heap
  /-- The fields are the same. -/
  fields : ∀ r, st'.heap.fields r = st.heap.fields r
  /-- The elements are the same. -/
  items : ∀ a, st'.heap.items a = st.heap.items a
  /-- The options are the same, the diagnostics among them. -/
  options : st'.options = st.options

namespace Unmoved

variable {st st₁ st₂ : State}

theorem refl (st : State) : Unmoved st st := ⟨.refl _, fun _ => rfl, fun _ => rfl, rfl⟩

theorem trans (h : Unmoved st st₁) (h' : Unmoved st₁ st₂) : Unmoved st st₂ :=
  ⟨h.grows.trans h'.grows, fun r => (h'.fields r).trans (h.fields r),
    fun a => (h'.items a).trans (h.items a), h'.options.trans h.options⟩

theorem addModel (st : State) (t : TypeId) (v : Value) :
    Unmoved st { st with heap := (st.heap.addModel t v).2 } :=
  ⟨(st.heap.extends_addModel t v).grows, fun r => st.heap.fields_addModel t v r,
    fun a => st.heap.items_addModel t v a, rfl⟩

theorem setWrapper (st : State) (r : RecordId) (m : Option ModelId) :
    Unmoved st { st with heap := st.heap.setWrapper r m } :=
  ⟨st.heap.grows_setWrapper r m, fun r' => st.heap.fields_setWrapper r r' m,
    fun a => st.heap.items_setWrapper r m a, rfl⟩

/-- What has been checked still is. -/
theorem vetted {s : Schema} {t : DataType} {ts : List DataType} {v : Value} (same : Unmoved st st₁)
    (vetted : Vetted s st.heap t ts v) : Vetted s st₁.heap t ts v :=
  vetted.of_same same.fields same.items

theorem record? {m : ModelId} (same : Unmoved st st₁) (there : st.heap.Holds (.model m)) :
    st₁.heap.record? m = st.heap.record? m := by
  rw [Heap.record?, same.grows.data_eq there, Heap.record?]

end Unmoved

/-- The run leaves data and options as they are and gives such a result, unless operations nest
deeper than they may. -/
def Quiet {α : Type} (st : State) (run : Except Fault α × State) (Q : α → Heap → Prop) : Prop :=
  run.1 = .error .exhausted ∨ ∃ a, run.1 = .ok a ∧ Unmoved st run.2 ∧ Q a run.2.heap

namespace Quiet

variable {α β : Type} {c : Context} {st st₁ : State} {act : Engine α} {next : α → Engine β}
  {Q : α → Heap → Prop} {R : β → Heap → Prop} {a : α}

theorem pure (q : Q a st.heap) : Quiet st ((Pure.pure a : Engine α) c st) Q :=
  Or.inr ⟨a, rfl, .refl st, q⟩

theorem after {run : Except Fault α × State} (same : Unmoved st st₁) (quiet : Quiet st₁ run Q) :
    Quiet st run Q :=
  quiet.imp_right fun ⟨a, ok, same', q⟩ => ⟨a, ok, same.trans same', q⟩

theorem bind (first : Quiet st (act c st) Q)
    (rest : ∀ a st', Unmoved st st' → Q a st'.heap → Quiet st' (next a c st') R) :
    Quiet st ((act >>= next) c st) R := by
  rw [bind_run]
  rcases run : act c st with ⟨result, st'⟩
  rw [run] at first
  rcases first with stopped | ⟨a, ok, same, q⟩
  · dsimp only at stopped
    rw [stopped]
    exact Or.inl rfl
  · dsimp only at ok
    rw [ok]
    exact (rest a st' same q).after same

theorem concerning {p : Property}
    (quiet : Quiet { st with options := { st.options with property := some p } }
      (act c { st with options := { st.options with property := some p } }) Q) :
    Quiet st (Engine.concerning p act c st) Q := by
  refine quiet.imp_right fun ⟨a, ok, same, q⟩ =>
    ⟨a, ok, ⟨same.grows, same.fields, same.items, ?_⟩, q⟩
  show { ((act c _).2).options with property := st.options.property } = st.options
  rw [same.options]

end Quiet

/-- What operations make of data that have been checked: nothing else. -/
structure Renews (s : Schema) (perform : Perform) : Prop where
  /-- Coercing a value for the property at hand. -/
  coerce : ∀ {c : Context} {st q v}, c.schema = s → st.options.property = some q →
    (∀ u ∈ q.type :: q.elements, s.declares u = true) → Vetted s st.heap q.type q.elements v →
      Quiet st (perform (.coerce q.type v) c st) fun w _ => w = v
  /-- Wrapping a record. -/
  wrap : ∀ {c : Context} {st t ts r}, c.schema = s → (s.type t).isStructured = true →
    Vetted s st.heap (.model t) ts (.record r) →
      Quiet st (perform (.wrap (.model t) (.record r)) c st) fun w _ => ∃ m, w = .model m
  /-- Constructing from a record. -/
  create : ∀ {c : Context} {st t ts r}, c.schema = s → (s.type t).isStructured = true →
    Vetted s st.heap (.model t) ts (.record r) →
      Quiet st (perform (.create t (some (.record r))) c st) fun m h =>
        h.type m = t ∧ h.data m = .record r
  /-- Writing what the field holds already. -/
  set : ∀ {c : Context} {st m r p}, c.schema = s → p.setter = none →
    (∀ u ∈ p.type :: p.elements, s.declares u = true) → st.heap.Holds (.model m) →
      st.heap.record? m = some r →
        Vetted s st.heap p.type p.elements ((st.heap.fields r).get p.storageKey) →
          Quiet st (perform (.set m p ((st.heap.fields r).get p.storageKey)) c st) fun _ _ => True

section Bodies

variable {s : Schema} {perform : Perform} {c : Context} {st : State} {p q : Property} {t : TypeId}
  {r : RecordId} {m : ModelId} {v : Value} {ts : List DataType}

/-! ### Coercing -/

theorem coerceScalar_own (b : Builtin) (c : Context) (st : State)
    (own : v.isNothing = true ∨ b.accepts v = true) : coerceScalar b v c st = (.ok v, st) := by
  unfold coerceScalar
  rw [if_pos (Bool.or_eq_true_iff.2 own)]
  rfl

theorem coerceInteger_own (c : Context) (st : State)
    (own : v.isNothing = true ∨ Builtin.integer.accepts v = true) :
    coerceInteger v c st = (.ok v, st) := by
  have number : v.isNothing = true ∨ Builtin.number.accepts v = true := by
    refine own.imp_right fun h => ?_
    cases v <;> first | rfl | cases h
  unfold coerceInteger
  rw [bind_run, coerceScalar_own .number c st number]
  cases v with
  | number x =>
    dsimp only
    rw [if_pos (by exact own.resolve_left Bool.false_ne_true)]
    rfl
  | _ => rfl

theorem replaceItems_quiet {action : Value → Engine Value} (c : Context) {a : ArrayId}
    {t : DataType} (act : ∀ {st : State} {v}, Vetted s st.heap t ts v →
      Quiet st (action v c st) fun w _ => w = v) {i count : Nat}
    (inside : i + count ≤ (st.heap.items a).length)
    (vetted : ∀ v ∈ st.heap.items a, Vetted s st.heap t ts v) :
    Quiet st (replaceItems action a i count c st) fun _ _ => True := by
  induction count generalizing i st with
  | zero => exact .pure trivial
  | succ count ih =>
    have hi : i < (st.heap.items a).length := by omega
    have mem : st.heap.item a i ∈ st.heap.items a := by
      rw [Heap.item, List.getD_eq_getElem?_getD, List.getElem?_eq_getElem hi, Option.getD_some]
      exact List.getElem_mem hi
    change Quiet st ((action (st.heap.item a i) >>= fun v =>
      changeHeap (·.setItem a i v) >>= fun _ => replaceItems action a (i + 1) count) c st) _
    refine (act (vetted _ mem)).bind fun w st' same e => ?_
    subst e
    have item : st'.heap.item a i = st.heap.item a i := by
      rw [Heap.item, same.items, Heap.item]
    show Quiet st' (replaceItems action a (i + 1) count c
      { st' with heap := st'.heap.setItem a i (st.heap.item a i) }) _
    rw [← item, Heap.setItem_item]
    refine ih (by rw [same.items]; omega) fun v hv => ?_
    rw [same.items] at hv
    exact same.vetted (vetted v hv)

theorem coerceBuiltin_quiet {stored : Property → Value → Engine Value} {b : Builtin}
    (type : q.type = .builtin b) (hand : st.options.property = some q)
    (elements : ∀ {e c' st v}, q.elementProperty? = some e → c'.schema = c.schema →
      Vetted s st.heap e.type e.elements v → Quiet st (stored e v c' st) fun w _ => w = v)
    (vetted : Vetted s st.heap q.type q.elements v) :
    Quiet st (coerceBuiltin stored b v c st) fun w _ => w = v := by
  rw [type] at vetted
  have own := vetted.accepts
  have scalar : Quiet st (coerceScalar b v c st) fun w _ => w = v := by
    rw [coerceScalar_own b c st own]
    exact .pure (c := c) rfl
  cases b with
  | integer =>
    show Quiet st (coerceInteger v c st) _
    rw [coerceInteger_own c st own]
    exact .pure (c := c) rfl
  | object => exact .pure rfl
  | array =>
    show Quiet st (coerceArray stored v c st) _
    unfold coerceArray
    split
    · exact .pure rfl
    · exact .pure rfl
    · rename_i a
      rw [bind_run]
      dsimp only [options]
      rw [hand, Option.bind_some]
      rcases he : q.elementProperty? with _ | e
      · exact .pure rfl
      · rw [(Property.elementProperty?_eq_some he).1] at vetted
        have replaced : Quiet st
            (holding [.array a] (replaceItems (stored e) a 0 (st.heap.items a).length) c st)
            fun _ _ => True :=
          replaceItems_quiet { c with held := [.array a] ++ c.held } (elements he rfl)
            (Nat.le_of_eq (Nat.zero_add _)) vetted.items
        exact replaced.bind fun _ st' _ _ => .pure rfl
    · rename_i hu hn ha
      exfalso
      rcases own with none | own
      · cases v <;> first | exact hu rfl | exact hn rfl | cases none
      · cases v <;> first | exact ha _ rfl | cases own
  | string => exact scalar
  | number => exact scalar
  | boolean => exact scalar
  | date => exact scalar

/-! ### Writing -/

theorem adapt_quiet (c : Context) (hp : Renews s perform) (hc : c.schema = s)
    (declared : ∀ u ∈ q.type :: q.elements, s.declares u = true)
    (hand : st.options.property = some q) (vetted : Vetted s st.heap q.type q.elements v) :
    Quiet st (adapt perform q v c st) fun w _ => w = v := by
  rw [adapt_run perform c st fun m e => by have := vetted.not_model; rw [e] at this; cases this]
  exact hp.coerce hc hand declared vetted

/-- Wrapping is tried for records, and gives a model. -/
theorem settle_quiet (c : Context) (d : s.Direct) (hp : Renews s perform) (hc : c.schema = s)
    (declared : ∀ u ∈ q.type :: q.elements, s.declares u = true)
    (vetted : Vetted s st.heap q.type q.elements v) :
    Quiet st (settle perform q v c st) fun w _ => w = v := by
  subst hc
  unfold settle
  rw [bind_run]
  dsimp only [schema]
  split
  · exact .pure (c := c) rfl
  · rename_i busy
    simp only [Bool.or_eq_true, Bool.not_eq_true', not_or, Bool.not_eq_false] at busy
    have record : ∃ t r, q.type = .model t ∧ v = .record r := by
      rcases hq : q.type with b | t | a
      · rw [hq] at busy
        cases busy.2
      · rw [hq] at vetted
        obtain ⟨r, e⟩ := vetted.record_of_model (Bool.eq_false_iff.2 busy.1)
        exact ⟨t, r, rfl, e⟩
      · have := declared _ List.mem_cons_self
        rw [hq] at this
        cases this
    obtain ⟨t, r, type, rfl⟩ := record
    have structured := declared _ List.mem_cons_self
    rw [type] at vetted structured ⊢
    have wrapped : Quiet st (holding [.record r] (perform (.wrap (.model t) (.record r))) c st) _ :=
      hp.wrap (c := { c with held := [.record r] ++ c.held }) rfl structured vetted
    refine wrapped.bind fun w st' _ ⟨m, e⟩ => ?_
    subst e
    exact .pure (c := c) rfl

theorem stored_quiet (c : Context) (d : s.Direct) (hp : Renews s perform) (hc : c.schema = s)
    (declared : ∀ u ∈ q.type :: q.elements, s.declares u = true)
    (vetted : Vetted s st.heap q.type q.elements v) :
    Quiet st (stored perform q v c st) fun w _ => w = v := by
  have adapted : Quiet { st with options := { st.options with property := some q } }
      (adapt perform q v c { st with options := { st.options with property := some q } })
      fun w _ => w = v := adapt_quiet c hp hc declared rfl vetted
  refine .concerning (adapted.bind fun w st' same e => ?_)
  subst e
  exact settle_quiet c d hp hc declared (same.vetted vetted)

theorem prepared_quiet (c : Context) (d : s.Direct) (hp : Renews s perform) (hc : c.schema = s)
    (declared : ∀ u ∈ q.type :: q.elements, s.declares u = true)
    (vetted : Vetted s st.heap q.type q.elements v) :
    Quiet st (prepared perform q v c st) fun w _ => w = v := by
  have adapted : Quiet st (concerning q (adapt perform q v) c st) fun w _ => w = v :=
    .concerning (adapt_quiet c hp hc declared rfl vetted)
  refine adapted.bind fun w st' same e => ?_
  subst e
  exact .concerning (settle_quiet c d hp hc declared (same.vetted vetted))

theorem writeProperty_quiet (c : Context) (d : s.Direct) (hp : Renews s perform) (hc : c.schema = s)
    (setter : p.setter = none) (declared : ∀ u ∈ p.type :: p.elements, s.declares u = true)
    (there : st.heap.Holds (.model m)) (record : st.heap.record? m = some r)
    (vetted : Vetted s st.heap p.type p.elements ((st.heap.fields r).get p.storageKey)) :
    Quiet st (writeProperty perform m p ((st.heap.fields r).get p.storageKey) c st)
      fun _ _ => True := by
  have ready := prepared_quiet { c with held := [.model m] ++ c.held } d hp hc declared vetted
  rw [writeProperty_run perform setter]
  generalize prepared perform p ((st.heap.fields r).get p.storageKey)
    { c with held := [.model m] ++ c.held } st = run at ready ⊢
  obtain ⟨result, st'⟩ := run
  rcases ready with stopped | ⟨w, ok, same, e⟩
  · dsimp only at stopped
    subst stopped
    exact Or.inl rfl
  · dsimp only at ok e same
    subst ok e
    dsimp only [wrote]
    rw [same.record? there, record, Option.elim_some, ← same.fields, Heap.insert_get]
    exact Or.inr ⟨(), rfl, same, trivial⟩

/-! ### Constructing -/

/-- What stands under a key that the type recognises goes through its property, if it has one. -/
theorem admitEntry_quiet (c : Context) (d : s.Direct) (hp : Renews s perform) (hc : c.schema = s)
    {key : String} (known : (s.type t).Recognizes key) (there : st.heap.Holds (.model m))
    (record : st.heap.record? m = some r)
    (fields : ∀ key p, (s.type t).through? key = some p →
      Vetted s st.heap p.type p.elements ((st.heap.fields r).get key)) :
    Quiet st (admitEntry perform m (s.type t) key ((st.heap.fields r).get key) c st)
      fun _ _ => True := by
  unfold admitEntry
  split
  · exact .pure trivial
  · rename_i free
    cases hp' : (s.type t).property? key with
    | some p =>
      have through : (s.type t).through? key = some p :=
        ModelType.through?_eq_some.2 ⟨Bool.eq_false_iff.2 free, hp'⟩
      have key_eq := d.storageKey_eq hp'
      have vetted := fields key p through
      rw [← key_eq] at vetted ⊢
      exact hp.set hc (d.isOpen.built.plainBelow_size hp').setter (d.declared hp') there record vetted
    | none =>
      have additional : (s.type t).allowsAdditional = true := by
        rcases known with through | reserved | additional
        · obtain ⟨p, hp⟩ := Option.isSome_iff_exists.1 through
          cases hp'.symm.trans (ModelType.through?_eq_some.1 hp).2
        · exact absurd reserved free
        · exact additional
      dsimp only
      rw [if_pos additional]
      exact .pure trivial

theorem admitEntries_quiet (c : Context) (d : s.Direct) (hp : Renews s perform) (hc : c.schema = s)
    {pending : List (String × Value)} (there : st.heap.Holds (.model m))
    (record : st.heap.record? m = some r)
    (own : ∀ e ∈ pending, (s.type t).Recognizes e.1 ∧ (st.heap.fields r).get e.1 = e.2)
    (fields : ∀ key p, (s.type t).through? key = some p →
      Vetted s st.heap p.type p.elements ((st.heap.fields r).get key)) :
    Quiet st (admitEntries perform m (s.type t) pending c st) fun _ _ => True := by
  induction pending generalizing st with
  | nil => exact .pure trivial
  | cons entry rest ih =>
    obtain ⟨key, v⟩ := entry
    obtain ⟨known, e⟩ := own _ List.mem_cons_self
    dsimp only at known e
    subst e
    have first : Quiet st (holding (.model m :: rest.map Prod.snd)
        (admitEntry perform m (s.type t) key ((st.heap.fields r).get key)) c st) fun _ _ => True :=
      admitEntry_quiet { c with held := (.model m :: rest.map Prod.snd) ++ c.held } d hp hc known there
        record fields
    refine first.bind fun _ st' same _ => ih (there.grows same.grows)
      ((same.record? there).trans record) (fun e he => ?_) fun key p through => ?_
    · rw [same.fields]
      exact own e (List.mem_cons_of_mem _ he)
    · rw [same.fields]
      exact same.vetted (fields key p through)

theorem construct_quiet (c : Context) (d : s.Direct) (hp : Renews s perform) (hc : c.schema = s)
    (structured : (s.type t).isStructured = true)
    (vetted : Vetted s st.heap (.model t) ts (.record r)) :
    Quiet st (construct perform t (some (.record r)) c st) fun m h =>
      h.type m = t ∧ h.data m = .record r := by
  rw [construct_structured perform hc (d.isOpen.instances t) structured]
  let m := (st.heap.addModel t (.record r)).1
  let st₁ : State := { st with heap := (st.heap.addModel t (.record r)).2 }
  have added : Unmoved st st₁ := .addModel st t (.record r)
  have there : st₁.heap.Holds (.model m) := st.heap.index_addModel_lt t _
  have data : st₁.heap.data m = .record r := st.heap.data_addModel t _
  have type : st₁.heap.type m = t := st.heap.type_addModel t _
  have vetted := added.vetted vetted
  have admitted : Quiet st₁ (admitEntries perform m (s.type t) (st₁.heap.fields r).entries c st₁)
      fun _ _ => True :=
    admitEntries_quiet c d hp hc there (by rw [Heap.record?, data]; rfl)
      (fun e he => ⟨vetted.keys e.1 (List.mem_map_of_mem he), Fields.get_of_mem he⟩) vetted.fields
  change Quiet st (fillModel perform t (s.type t) r c st) _
  rw [fillModel_run perform hc (Schema.initRules_of_free d.isOpen.ruleFree _)]
  refine .after added (admitted.bind fun _ st₂ same _ => ?_)
  let st₃ : State := { st₂ with heap := st₂.heap.setWrapper r (some m) }
  have attached : Unmoved st₂ st₃ := .setWrapper st₂ r (some m)
  have grows := same.grows.trans attached.grows
  exact .after attached (.pure (c := c)
    ⟨(grows.type_eq there).trans type, (grows.data_eq there).trans data⟩)

theorem wrapUnder_quiet (c : Context) (d : s.Direct) (hp : Renews s perform) (hc : c.schema = s)
    (structured : (s.type t).isStructured = true)
    (vetted : Vetted s st.heap (.model t) ts (.record r)) :
    Quiet st (wrapUnder perform t (.record r) c st) fun w _ => ∃ m, w = .model m := by
  subst hc
  rw [wrapUnder_run perform c st (Or.inl (d.isOpen.wrap t)) (d.isOpen.coerce t) rfl,
    if_neg (by exact Bool.false_ne_true),
    wrapData_run perform c st (d.isOpen.wrap t) rfl fun _ => rfl]
  split
  · exact .pure (c := c) ⟨_, rfl⟩
  · exact (hp.create rfl structured vetted).bind fun m _ _ _ => .pure ⟨m, rfl⟩

end Bodies

/-- At any depth, operations leave checked data as they are. -/
theorem perform_renews {s : Schema} (d : s.Direct) (depth : Nat) :
    Renews s (Engine.perform depth) := by
  induction depth with
  | zero =>
    exact ⟨fun _ _ _ _ => Or.inl rfl, fun _ _ _ => Or.inl rfl, fun _ _ _ => Or.inl rfl,
      fun _ _ _ _ _ _ => Or.inl rfl⟩
  | succ depth ih =>
    refine ⟨fun {c st q v} hc hand declared vetted => ?_,
      fun hc structured vetted => wrapUnder_quiet _ d ih hc structured vetted,
      fun hc structured vetted => construct_quiet _ d ih hc structured vetted,
      fun hc setter declared there record vetted =>
        writeProperty_quiet _ d ih hc setter declared there record vetted⟩
    rcases type : q.type with b | t | a
    · refine coerceBuiltin_quiet type hand (fun {e c' st' v'} he hc' vetted' => ?_) vetted
      refine stored_quiet c' d ih (hc'.trans hc) (fun u hu => declared u ?_) vetted'
      rw [(Property.elementProperty?_eq_some he).1]
      exact List.mem_cons_of_mem _ hu
    · show Quiet st (coerceUnder (Engine.perform depth) t v c st) _
      rw [coerceUnder_run _ c st (hc ▸ d.isOpen.coerce t)]
      exact .pure (c := c) rfl
    · have := declared _ List.mem_cons_self
      rw [type] at this
      cases this

/-! ### Models of checked records -/

/-- The run gives a model of the type around the record, and leaves data and options as they are. -/
def Encloses (t : TypeId) (r : RecordId) (st : State) (run : Except Fault Value × State) : Prop :=
  ∃ m, run.1 = .ok (.model m) ∧ Unmoved st run.2 ∧ run.2.heap.type m = t ∧
    run.2.heap.data m = .record r

section Results

variable {s : Schema} {c : Context} {st : State} {t : TypeId} {r : RecordId} {ts : List DataType}

/-- Reading checks nothing: it gives a fresh model. -/
theorem represent_encloses (d : s.Direct) (hc : c.schema = s) (perform : Perform)
    (structured : (s.type t).isStructured = true)
    (alone : liveWrapper? c st.heap (.record r) = none) :
    Encloses t r st (represent perform t (.record r) c st) := by
  subst hc
  let m := (st.heap.addModel t (.record r)).1
  let st₁ : State := { st with heap := (st.heap.addModel t (.record r)).2 }
  have added : Unmoved st st₁ := .addModel st t (.record r)
  have attached := Unmoved.setWrapper st₁ r (some m)
  have there : st₁.heap.Holds (.model m) := st.heap.index_addModel_lt t _
  rw [represent_run perform c st (d.isOpen.wrap t) rfl rfl rfl fun _ => rfl,
    if_pos (d.isOpen.instances t), alone, freshModel_record, if_pos structured]
  exact ⟨m, rfl, added.trans attached,
    (attached.grows.type_eq there).trans (st.heap.type_addModel t _),
    (attached.grows.data_eq there).trans (st.heap.data_addModel t _)⟩

/-- **Wrapping a checked record gives a model and changes no data.**  With any options, where no
property is at hand, everything in the record is found in order, and replaced by itself. -/
theorem wrap_vetted (d : s.Direct) (hc : c.schema = s) (hp : st.options.property = none)
    (structured : (s.type t).isStructured = true)
    (vetted : Vetted s st.heap (.model t) ts (.record r))
    (alone : liveWrapper? c st.heap (.record r) = none) :
    Encloses t r st (wrap (.model t) (.record r) c st) := by
  subst hc
  obtain ⟨depth, hd⟩ := c.schema.budget_eq_succ 0
  have made : wrap (.model t) (.record r) c st =
      (Engine.perform depth (.create t (some (.record r))) >>= fun m => pure (.model m)) c st := by
    show Engine.perform (c.schema.budget 0) (.wrap (.model t) (.record r)) c st = _
    rw [hd, wrap_record_run depth ⟨d.isOpen.wrap t, d.isOpen.coerce t⟩, alone]
  have ended := ((Request.run_orderly d.isOpen.built (q := .wrap (.model t) (.record r))
    (Schema.index_lt_of_isStructured structured)).keeps rfl hp).1
  change (wrap (.model t) (.record r) c st).1 ≠ _ at ended
  rw [made] at ended ⊢
  have quiet : Quiet st
      ((Engine.perform depth (.create t (some (.record r))) >>= fun m => pure (Value.model m)) c st)
      fun w h => ∃ m, w = .model m ∧ h.type m = t ∧ h.data m = .record r :=
    ((perform_renews d depth).create rfl structured vetted).bind fun m _ _ around =>
      .pure ⟨m, rfl, around⟩
  obtain ⟨_, ok, same, m, rfl, around⟩ := quiet.resolve_left ended
  exact ⟨m, ok, same, around⟩

end Results

end Engine

end Overlay
