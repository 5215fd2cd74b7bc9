import Overlay.Proofs.Engine.Admitting
import Overlay.Proofs.Engine.Filling

/-!
# Operations come to the verdict on the tree

On types without hooks, what an operation does to trees on offer is told by their slots alone.
`Engine.Judges` says so of the operations that an operation has done, and the lemmas here derive it
for the operation itself.

* `Engine.perform_judges` : the operations come to the verdict at any depth.
-/

namespace Overlay

namespace Engine

open Heap

/-- The model was made of the record, which shows these fields, by cells of the list and shared
ones. -/
structure Filled (s : Schema) (F : Value → Prop) (T : List Value) (t : TypeId) (r : RecordId)
    (m : ModelId) (fields : Entries) (h : Heap) : Prop where
  /-- The model is there. -/
  model : h.Holds (.model m)
  /-- It is an instance of the type. -/
  type : h.type m = t
  /-- It wraps the record. -/
  data : h.data m = .record r
  /-- It is attached to it. -/
  attached : h.attached? r = some m
  /-- The record shows the keys. -/
  keys : (h.fields r).keys = fields.keys
  /-- It shows the trees. -/
  shows : h.Shows (fun u => F u ∨ u ∈ T) (h.fields r).values (fields.map Prod.snd)
  /-- If storage keys belong to one property each, the fields are known by their properties. -/
  knows : s.Keyed (.model t) → ∀ key, isReserved key = false →
    Known s h ((s.type t).slot? key) ((h.fields r).get key)

/-- The operations come to the verdicts. -/
structure Judges (s : Schema) (strict : Bool) (perform : Perform) : Prop where
  /-- Coercing to a built-in type. -/
  coerce : ∀ {c st F p b v x T}, c.schema = s → s.FreeProperty p →
    p.type = .builtin b → st.options.Gathers strict (some p) →
      Offered s st.heap F [some p.slot] [v] [x] T →
        Judged T st (Tree.stored s strict p.slot x) (Settled s F T p.slot v x)
          (perform (.coerce (.builtin b) v) c st)
  /-- Coercing to a model type does nothing. -/
  keep : ∀ {c st t v}, c.schema = s → s.Free (.model t) →
    Judged [] st (pure ()) (fun w _ h => w = v ∧ h = st.heap) (perform (.coerce (.model t) v) c st)
  /-- Wrapping. -/
  wrap : ∀ {c st F o p t v x T}, c.schema = s → s.Free (.model t) → p.AtHand o → p.type = .model t →
    (s.type t).wraps = true → v.isNothing = false → st.options.Gathers strict o →
      Offered s st.heap F [some p] [v] [x] T →
        Judged T st (Tree.stored s strict p x)
          (fun w => Settled s F T p v x (if w.isUndefined then .undefined else v))
          (perform (.wrap (.model t) v) c st)
  /-- Constructing from a record. -/
  create : ∀ {c st F p t r es T}, c.schema = s → s.Free (.model t) → (s.type t).isStructured = true →
    st.options.Gathers strict p → st.heap.Holds (.record r) → .record r ∉ T → ¬ F (.record r) →
      (st.heap.fields r).keys = es.keys →
        Offered s st.heap F ((st.heap.fields r).keys.map (s.type t).slot?) (st.heap.fields r).values
          (es.map Prod.snd) T →
          Judged (.record r :: T) st
            (if (s.type t).allowsInstances then Tree.admitted s strict t es [] es
              else .raise (.noInstances (s.type t).name))
            (Filled s F T t r) (perform (.create t (some (.record r))) c st)
  /-- Constructing under a type without properties. -/
  createBare : ∀ {c st t v}, c.schema = s → s.Free (.model t) → (s.type t).isStructured = false →
    Judged [] st
      (if (s.type t).allowsInstances then pure () else .raise (.noInstances (s.type t).name))
      (fun _ _ _ => True) (perform (.create t (some v)) c st)
  /-- Writing. -/
  set : ∀ {c st F o q v x T m}, c.schema = s → s.FreeProperty q →
    st.options.Gathers strict o → Offered s st.heap F [some q.slot] [v] [x] T →
      ∃ mid, Judged T st (Tree.stored s strict q.slot x) (Settled s F T q.slot v x) mid ∧
        perform (.set m q v) c st = wrote m q.storageKey mid

section Bodies

variable {s : Schema} {strict : Bool} {perform : Perform} {c : Context} {st : State}
  {F : Value → Prop} {q : Property} {t : TypeId} {r : RecordId} {v : Value} {x : Tree}
  {T : List Value}

theorem stored_bare {p : Slot} (type : p.type = .model t) (still : x.Still s (some p)) :
    Tree.stored s strict p x = Tree.bare s t p.name x := by
  rw [Tree.stored_of_still still]
  unfold Tree.idle
  rw [type]

/-! ### Writing -/

/-- Under a model type, settling does all the work. -/
theorem settle_judged (c : Context) (hp : Judges s strict perform) (hc : c.schema = s)
    (free : s.Free (.model t)) (type : q.type = .model t) (g : st.options.Gathers strict (some q))
    (o : Offered s st.heap F [some q.slot] [v] [x] T) :
    Judged T st (Tree.stored s strict q.slot x) (Settled s F T q.slot v x)
      (settle perform q v c st) := by
  unfold settle
  rw [bind_run]
  dsimp only [schema]
  rw [hc, type]
  split
  · rename_i idle
    -- nothing is wrapped here, so the tree must be one that its slot stores as it is
    have same : Tree.stored s strict q.slot x = pure x := by
      have nothing := o.shows.isNothing_eq
      have still : x.Still s (some q.slot) := by
        cases x with
        | leaf u => trivial
        | array xs =>
          show q.slot.items? = none
          unfold Slot.items?
          rw [show q.slot.type = .model t from type]
        | record es =>
          show q.slot.form? s = none
          unfold Slot.form?
          rw [show q.slot.type = .model t from type]
          rw [← nothing] at idle
          have : (s.type t).wraps = false := by simpa [Tree.isNothing, Schema.wraps] using idle
          simp [this]
      rw [stored_bare type still]
      exact if_pos (by rw [nothing]; exact idle)
    rw [same]
    exact .pure (.of_same o)
  · rename_i busy
    simp only [Bool.or_eq_true, Bool.not_eq_true', not_or, Bool.not_eq_false] at busy
    have wrapped : Judged T st _ _ (holding [v] (perform (.wrap (.model t) v)) c st) :=
      hp.wrap (c := { c with held := [v] ++ c.held }) hc free q.slot_atHand type busy.2
        (Bool.eq_false_iff.2 busy.1) g o
    rw [← bind_pure (Tree.stored s strict q.slot x)]
    refine wrapped.bind (fun _ h => Or.inl h) fun w y st' d noted settled => ?_
    split
    · rename_i hw
      rw [if_pos hw] at settled
      exact .pure settled
    · rename_i hw
      rw [if_neg hw] at settled
      -- the offered value shows a tree, and a model shows none
      have unwrapped : st'.heap.unwrap v = v := by
        have := o.not_model
        cases v <;> first | rfl | exact absurd rfl (this _)
      show Judged T st' (pure y) _ ((pure (st'.heap.unwrap v) : Engine Value) c st')
      rw [unwrapped]
      exact .pure settled

/-- Coercing and settling come to the verdict if the one of them that does the work does. -/
theorem store_judged (hq : s.FreeProperty q) {adapting : Engine Value}
    {settling : Value → Engine Value} {V : Verdict Tree} {R : Value → Tree → Heap → Prop}
    (builtin : ∀ b, q.type = .builtin b → Judged T st V R (adapting c st) ∧
      ∀ w st', settling w c st' = (.ok w, st'))
    (model : ∀ t, q.type = .model t → s.Free (.model t) →
      Judged [] st (pure ()) (fun w _ h => w = v ∧ h = st.heap) (adapting c st) ∧
        ∀ st', st'.heap = st.heap → st'.options = st.options →
          Judged T st' V R (settling v c st')) :
    Judged T st V R ((adapting >>= settling) c st) := by
  rcases ht : q.type with b | t | a
  · obtain ⟨first, settled⟩ := builtin b ht
    rw [← bind_pure V]
    refine first.bind (fun _ h => Or.inl h) fun w y st' _ _ r => ?_
    rw [settled]
    exact .pure (c := c) r
  · obtain ⟨first, settled⟩ := model t ht (hq.slot.model ht)
    rw [← pure_bind () fun _ => V]
    refine first.bind (fun _ h => absurd h List.not_mem_nil) fun w _ st' _ noted ⟨e, heap⟩ => ?_
    rw [e]
    exact settled st' heap (noted.trans (Options.noting_nil _))
  · exact nomatch hq.slot (.adapter a) (List.mem_cons.2 (Or.inl ht.symm))

theorem adapt_judged (c : Context) (hp : Judges s strict perform) (hc : c.schema = s)
    (hq : s.FreeProperty q) {b : Builtin} (type : q.type = .builtin b)
    (g : st.options.Gathers strict (some q))
    (o : Offered s st.heap F [some q.slot] [v] [x] T) :
    Judged T st (Tree.stored s strict q.slot x) (Settled s F T q.slot v x)
      (adapt perform q v c st) := by
  rw [adapt_run perform c st o.not_model, type]
  exact hp.coerce hc hq type g o

theorem adapt_keeps (c : Context) (st : State) (hp : Judges s strict perform) (hc : c.schema = s)
    (free : s.Free (.model t)) (type : q.type = .model t) (hv : ∀ m, v ≠ .model m) :
    Judged [] st (pure ()) (fun w _ h => w = v ∧ h = st.heap) (adapt perform q v c st) := by
  rw [adapt_run perform c st hv, type]
  exact hp.keep hc free

theorem stored_judged (c : Context) (hp : Judges s strict perform) (hc : c.schema = s)
    (hq : s.FreeProperty q) {p : Option Property} (g : st.options.Gathers strict p)
    (o : Offered s st.heap F [some q.slot] [v] [x] T) :
    Judged T st (Tree.stored s strict q.slot x) (Settled s F T q.slot v x)
      (stored perform q v c st) := by
  have g' := g.concerning q
  refine .concerning (store_judged (v := v) hq
    (fun b type => ⟨?_, fun w st' => settle_builtin type w c st'⟩)
    fun t type free => ⟨?_, fun st' heap options => ?_⟩)
  · exact adapt_judged c hp hc hq type g' o
  · exact adapt_keeps c _ hp hc free type o.not_model
  · exact settle_judged c hp hc free type (options ▸ g') (heap ▸ o)

theorem prepared_judged (c : Context) (hp : Judges s strict perform) (hc : c.schema = s)
    (hq : s.FreeProperty q) {p : Option Property} (g : st.options.Gathers strict p)
    (o : Offered s st.heap F [some q.slot] [v] [x] T) :
    Judged T st (Tree.stored s strict q.slot x) (Settled s F T q.slot v x)
      (prepared perform q v c st) := by
  refine store_judged (v := v) hq (fun b type => ⟨.concerning ?_, fun w st' => ?_⟩)
    fun t type free => ⟨.concerning ?_, fun st' heap options => .concerning ?_⟩
  · exact adapt_judged c hp hc hq type (g.concerning q) o
  · unfold concerning
    rw [settle_builtin type]
  · exact adapt_keeps c _ hp hc free type o.not_model
  · exact settle_judged c hp hc free type ((options ▸ g).concerning q) (heap ▸ o)

/-- Writing a property checks the value before the field changes. -/
theorem writeProperty_judged (hp : Judges s strict perform) (hc : c.schema = s)
    (hq : s.FreeProperty q) {p : Option Property} (g : st.options.Gathers strict p)
    (o : Offered s st.heap F [some q.slot] [v] [x] T) (m : ModelId) :
    ∃ mid, Judged T st (Tree.stored s strict q.slot x) (Settled s F T q.slot v x) mid ∧
      writeProperty perform m q v c st = wrote m q.storageKey mid :=
  ⟨_, prepared_judged { c with held := [.model m] ++ c.held } hp hc hq g o,
    writeProperty_run perform hq.setter m v c st⟩

/-! ### Wrapping -/

theorem stored_form {p : Slot} (form : p.form? s = some t) (es : Entries) :
    Tree.stored s strict p (.record es) =
      (if (s.type t).allowsInstances then Tree.admitted s strict t es [] es
        else .raise (.noInstances (s.type t).name)) >>= fun fields => pure (.record fields) := by
  rw [Tree.stored, form]
  dsimp only
  split <;> rfl

theorem Filled.settled {p : Slot} {m : ModelId} {fields es : Entries} {h : Heap}
    (filled : Filled s F T t r m fields h) (form : p.form? s = some t) :
    Settled s F (.record r :: T) p (.record r) (.record es) (.record r) (.record fields) h where
  leaf e := Bool.noConfusion e
  same _ := rfl
  shows := .record (Or.inr List.mem_cons_self) filled.keys
    (filled.shows.mono fun u => Or.imp_right (List.mem_cons_of_mem _)) .nil
  known keyed := by
    refine .record (t := t) (Slot.shape?_of_form? form) (fun m' hm => ?_)
      (filled.knows (keyed.model (Slot.type_of_form? form)))
    cases filled.attached.symm.trans hm
    exact ⟨filled.model, filled.data, filled.type⟩

/-- No model is attached to what is on offer, so wrapping it makes one. -/
theorem wrapData_offered {p : Option Slot} (perform : Perform) (c : Context)
    (standard : (c.schema.type t).wrap = .standard) (o : Offered s st.heap F [p] [v] [x] T)
    (ha : v.isArray = false) (shape : (c.schema.type t).isStructured = true → v.isRecord = true) :
    wrapData perform t v c st =
      (perform (.create t (some v)) >>= fun m => pure (.model m)) c st := by
  have unattached : liveWrapper? c st.heap v = none :=
    liveWrapper?_eq_none fun r hr => (hr ▸ o).unattached
  rw [wrapData_run perform c st standard ha shape, unattached]

/-- Under a type with properties, the fields of a record go through these. -/
theorem wrapRecord_judged (hp : Judges s strict perform) (hc : c.schema = s) {p : Slot}
    {hand : Option Property} (free : s.Free (.model t)) (standard : (s.type t).wrap = .standard)
    (structured : (s.type t).isStructured = true) (form : p.form? s = some t)
    (hr : v.isRecord = true) (g : st.options.Gathers strict hand)
    (o : Offered s st.heap F [some p] [v] [x] T) :
    Judged T st (Tree.stored s strict p x)
      (fun w => Settled s F T p v x (if w.isUndefined then .undefined else v))
      (wrapData perform t v c st) := by
  subst hc
  obtain ⟨es, rfl⟩ : ∃ es, x = .record es := by
    have := o.shows.isRecord_eq.trans hr
    cases x <;> first | exact ⟨_, rfl⟩ | cases this
  obtain ⟨r, T', rfl, rfl, out, hF, keys, inside⟩ := o.of_record form
  have created := hp.create (T := T') rfl free structured g (o.held _ List.mem_cons_self) out hF keys
    inside
  rw [stored_form form, wrapData_offered perform c standard o rfl fun _ => rfl]
  exact created.bind (fun _ h => Or.inl h) fun m fields st' d noted filled =>
    .pure (filled.settled form)

/-- Under a type without properties, a model is made around whatever is no array. -/
theorem wrapBare_judged (hp : Judges s strict perform) (hc : c.schema = s) {p : Slot}
    (free : s.Free (.model t)) (standard : (s.type t).wrap = .standard)
    (bare : (s.type t).isStructured = false)
    (ha : v.isArray = false) (o : Offered s st.heap F [some p] [v] [x] T) :
    Judged T st
      (if (s.type t).allowsInstances then pure x else .raise (.noInstances (s.type t).name))
      (fun w => Settled s F T p v x (if w.isUndefined then .undefined else v))
      (wrapData perform t v c st) := by
  subst hc
  have verdict : (if (c.schema.type t).allowsInstances then pure x
      else .raise (.noInstances (c.schema.type t).name) : Verdict Tree) =
        (if (c.schema.type t).allowsInstances then pure ()
          else .raise (.noInstances (c.schema.type t).name)) >>= fun _ => pure x := by
    split <;> rfl
  rw [verdict, wrapData_offered perform c standard o ha fun h => by simp [bare] at h]
  refine (hp.createBare rfl free bare).bind (fun _ h => absurd h List.not_mem_nil)
    fun m _ st' d noted _ => .pure (.of_same ?_)
  exact o.advance d (fun _ _ => List.not_mem_nil) fun _ _ => List.not_mem_nil

theorem wrapUnder_judged (hp : Judges s strict perform) (free : s.Free (.model t))
    (hc : c.schema = s) {p : Slot} {hand : Option Property}
    (hq : p.AtHand hand)
    (type : p.type = .model t) (wraps : (s.type t).wraps = true)
    (hv : v.isNothing = false) (g : st.options.Gathers strict hand)
    (o : Offered s st.heap F [some p] [v] [x] T) :
    Judged T st (Tree.stored s strict p x)
      (fun w => Settled s F T p v x (if w.isUndefined then .undefined else v))
      (wrapUnder perform t v c st) := by
  subst hc
  have standard : (c.schema.type t).wrap = .standard := by
    refine free.ruleFree.wrap.resolve_right fun disabled => ?_
    rw [ModelType.wraps, disabled] at wraps
    cases wraps
  have items : p.items? = none := by
    unfold Slot.items?
    rw [type]
  have form : p.form? c.schema =
      if (c.schema.type t).isStructured = true then some t else none := by
    unfold Slot.form?
    rw [type]
    dsimp only
    rw [wraps, Bool.true_and]
  rw [wrapUnder_run perform c st free.ruleFree.wrap free.ruleFree.coerce (by
    have := o.not_model
    cases v <;> first | rfl | exact absurd rfl (this _)),
    if_neg (by rw [hv]; exact Bool.false_ne_true)]
  -- unless fields go through properties, the verdict is the one on a bare tree
  have bare : x.Still c.schema (some p) → Tree.stored c.schema strict p x =
      if x.isArray then .raise .wrappedArray
      else if (c.schema.type t).isStructured then .invalid p.name x
      else if (c.schema.type t).allowsInstances then pure x
      else .raise (.noInstances (c.schema.type t).name) := by
    intro still
    rw [stored_bare type still]
    unfold Tree.bare
    rw [o.shows.isNothing_eq, hv, wraps, if_neg (by decide)]
  by_cases ha : v.isArray = true
  · have hx := o.shows.isArray_eq.trans ha
    have still : x.Still c.schema (some p) := by
      cases x <;> first | exact items | cases hx
    rw [bare still, if_pos hx, wrapData_array perform c st standard ha]
    exact .raise (c := c) _
  · replace ha := Bool.eq_false_iff.2 ha
    have hx : x.isArray = false := o.shows.isArray_eq.trans ha
    by_cases structured : (c.schema.type t).isStructured = true
    · rw [if_pos structured] at form
      by_cases hr : v.isRecord = true
      · exact wrapRecord_judged hp rfl free standard structured form hr g o
      · have still : x.Still c.schema (some p) := by
          have := o.shows.isRecord_eq.trans (Bool.eq_false_iff.2 hr)
          cases x <;> trivial
        rw [bare still, hx, if_neg Bool.false_ne_true, if_pos structured,
          wrapData_invalid perform c st standard ha (by simp [structured, hr])]
        rw [hq.name]
        exact .invalid g o.text_eq (.of_leaf o rfl rfl)
    · rw [if_neg structured] at form
      have still : x.Still c.schema (some p) := by
        cases x <;> trivial
      rw [bare still, hx, if_neg Bool.false_ne_true, if_neg structured]
      exact wrapBare_judged hp rfl free standard (Bool.eq_false_iff.2 structured) ha o

theorem coerceBy_judged (hp : Judges s strict perform) (hc : c.schema = s)
    (hq : s.FreeProperty q) {b : Builtin} (type : q.type = .builtin b)
    (g : st.options.Gathers strict (some q)) (o : Offered s st.heap F [some q.slot] [v] [x] T) :
    Judged T st (Tree.stored s strict q.slot x) (Settled s F T q.slot v x)
      (coerceBy perform (.builtin b) v c st) :=
  coerceBuiltin_judged q.slot_atHand type g (fun he hc' g' o' =>
    stored_judged _ hp (hc'.trans hc) (hq.element he) g' o') o

/-! ### Constructing -/

theorem wrote_judged {V : Verdict Tree} {p : Slot} (key : String) {m : ModelId}
    {mid : Except Fault Value × State} (j : Judged T st V (Settled s F T p v x) mid)
    (model : st.heap.Holds (.model m)) (data : st.heap.data m = .record r) :
    Judged (.record r :: T) st V
      (fun _ y h => ∃ w h', st.heap.ChangesOnly h' T ∧ Settled s F T p v x w y h' ∧
        h = h'.insert r key w) (wrote m key mid) := by
  obtain ⟨result, st'⟩ := mid
  have below : ∀ u ∈ T, u ∈ .record r :: T ∨ ¬ st.heap.Holds u := fun u hu =>
    Or.inl (List.mem_cons_of_mem _ hu)
  rcases j with e | ⟨d, noted, ends⟩
  · dsimp only at e
    subst e
    exact Or.inl rfl
  · cases hV : V.result with
    | error e =>
      rw [hV] at ends
      dsimp only at ends
      subst ends
      exact Or.inr ⟨d.mono below, noted, by rw [hV]; rfl⟩
    | ok y =>
      rw [hV] at ends
      obtain ⟨w, hw, settled⟩ := ends
      dsimp only at hw
      subst hw
      have record := st'.heap.record?_of_data ((d.grows.data_eq model).trans data)
      have stored : wrote m key (.ok w, st') =
          (.ok (), { st' with heap := st'.heap.insert r key w }) := by
        unfold wrote
        dsimp only
        rw [record]
        rfl
      rw [stored]
      refine Or.inr ⟨?_, noted, by rw [hV]; exact ⟨(), rfl, w, _, d, settled, rfl⟩⟩
      exact (d.mono below).trans (st'.heap.changesOnly_insert List.mem_cons_self key w) fun u hu =>
        Or.inl hu

theorem admitProperty_judged (c : Context) (hp : Judges s strict perform) (hs : s.Stratified)
    (free : s.Free (.model t)) (hc : c.schema = s) {p : Option Property}
    (g : st.options.Gathers strict p)
    {own : String → List Value} {es fields : Entries} {rest : List (String × Value)}
    {written : List String} {key : String}
    (a : Admitting s F t r own es ((key, v) :: rest) written fields st.heap)
    (hkey : isReserved key = false) (hprop : (s.type t).property? key = some q) {m : ModelId}
    (model : st.heap.Holds (.model m)) (data : st.heap.data m = .record r) :
    Judged (.record r :: own key) st (Tree.stored s strict q.slot (es.get key))
      (fun _ y => Admitting s F t r own es rest (q.storageKey :: written)
        (Entries.put q.storageKey y (Entries.reveal written key y fields)))
      (admitEntry perform m (s.type t) key v c st) := by
  have offered := a.offered key v List.mem_cons_self
  have slot : (s.type t).slot? key = some q.slot := by
    unfold ModelType.slot?
    rw [hkey, hprop]
    rfl
  rw [slot] at offered
  obtain ⟨mid, judged, run⟩ := hp.set (m := m) hc (free.property hs hprop) g offered
  have entry : admitEntry perform m (s.type t) key v c st = wrote m q.storageKey mid := by
    rw [← run]
    unfold admitEntry
    rw [hkey, hprop]
    rfl
  rw [entry]
  refine (wrote_judged q.storageKey judged model data).mono (fun _ h => Or.inl h) ?_
  rintro - y h - ⟨w, h', d, settled, rfl⟩
  exact a.write d settled hprop fun keyed =>
    ModelType.WellKeyed.found_by_storageKey keyed.wellKeyed (hs.placedAt t) hprop

theorem unrecognized_judged (c : Context) {p : Option Property}
    (g : st.options.Gathers strict p) (key : String) :
    Judged [] st (Verdict.signal (.unrecognizedKey key) >>= fun _ => pure ())
      (fun _ _ h => h = st.heap)
      ((signal (.unrecognizedKey key) >>= fun _ => pure () : Engine Unit) c st) :=
  (Judged.signal (P := fun _ _ h => h = st.heap) g _ rfl).bind (fun _ h => Or.inl h)
    fun _ _ _ _ _ e => .pure e

theorem admitEntries_judged (c : Context) (hp : Judges s strict perform) (hs : s.Stratified)
    (free : s.Free (.model t)) (hc : c.schema = s) {p : Option Property}
    (g : st.options.Gathers strict p)
    {own : String → List Value} {es fields : Entries} {pending : List (String × Value)}
    {written : List String} (a : Admitting s F t r own es pending written fields st.heap)
    (sub : ∀ key, ∀ u ∈ own key, u ∈ T) {m : ModelId} (model : st.heap.Holds (.model m))
    (data : st.heap.data m = .record r) :
    Judged (.record r :: T) st
      (Tree.admitted s strict t (pending.map fun e => (e.1, es.get e.1)) written fields)
      (fun _ fields h => ∃ written, Admitting s F t r own es [] written fields h)
      (admitEntries perform m (s.type t) pending c st) := by
  -- along the pending entries; `Admitting` is the invariant, which keeps their cells apart
  induction pending generalizing written fields st with
  | nil => exact .pure ⟨written, a⟩
  | cons entry rest ih =>
    obtain ⟨key, v⟩ := entry
    let c' : Context := { c with held := (.model m :: rest.map Prod.snd) ++ c.held }
    change Judged _ st _ _ ((holding (.model m :: rest.map Prod.snd)
      (admitEntry perform m (s.type t) key v) >>= fun _ =>
        admitEntries perform m (s.type t) rest) c st)
    rw [List.map_cons, Tree.admitted]
    have pass : ∀ (none : (s.type t).slot? key = none), Judged (.record r :: T) st
        (Tree.admitted s strict t (rest.map fun e => (e.1, es.get e.1)) written fields)
        (fun _ fields h => ∃ written, Admitting s F t r own es [] written fields h)
        (admitEntries perform m (s.type t) rest c st) := fun none => ih g (a.skip none) model data
    by_cases hkey : isReserved key = true
    · rw [if_pos hkey]
      have skipped : holding (.model m :: rest.map Prod.snd)
          (admitEntry perform m (s.type t) key v) c st = (.ok (), st) := by
        unfold holding admitEntry
        rw [if_pos hkey]
        rfl
      rw [bind_run, skipped]
      exact pass (by unfold ModelType.slot?; rw [if_pos hkey])
    · rw [if_neg hkey]
      cases hprop : (s.type t).property? key with
      | none =>
        have none : (s.type t).slot? key = none := by
          unfold ModelType.slot?
          rw [if_neg hkey, hprop]
          rfl
        have entry : admitEntry perform m (s.type t) key v =
            if (s.type t).allowsAdditional then pure ()
            else signal (.unrecognizedKey key) >>= fun _ => pure () := by
          unfold admitEntry
          rw [if_neg hkey, hprop]
        dsimp only
        rw [entry]
        split
        · exact pass none
        · rw [← pure_bind () fun _ => Tree.admitted s strict t
            (rest.map fun e => (e.1, es.get e.1)) written fields, ← bind_assoc]
          refine Judged.bind (unrecognized_judged c' g key) (fun _ h => absurd h List.not_mem_nil)
            fun _ _ st' d noted e => ?_
          exact ih (noted ▸ g.noting _) (e ▸ a.skip none) (e ▸ model) (e ▸ data)
      | some q =>
        refine Judged.bind (admitProperty_judged c' hp hs free hc g a (Bool.eq_false_iff.2 hkey) hprop
          model data) (fun u hu => Or.inl ?_) fun _ y st' d noted written' => ?_
        · exact (List.mem_cons.1 hu).elim (fun e => e ▸ List.mem_cons_self) fun hu =>
            List.mem_cons_of_mem _ (sub key u hu)
        · exact ih (noted ▸ g.noting _) written' (model.grows d.grows)
            ((d.grows.data_eq model).trans data)

theorem Filled.attach {h : Heap} {own : String → List Value} {es fields : Entries}
    {written : List String} {m : ModelId} (a : Admitting s F t r own es [] written fields h)
    (sub : ∀ key, ∀ u ∈ own key, u ∈ T) (model : h.Holds (.model m)) (type : h.type m = t)
    (data : h.data m = .record r) : Filled s F T t r m fields (h.setWrapper r (some m)) := by
  have d : h.ChangesOnly (h.setWrapper r (some m)) [.record r] :=
    h.changesOnly_setWrapper List.mem_cons_self _
  refine ⟨model, type, data, ?_, ?_, ?_, fun keyed key hk => ?_⟩
  · rw [attached?_setWrapper, if_pos ⟨rfl, a.held⟩]
  · rw [fields_setWrapper]
    exact a.keys
  · rw [fields_setWrapper]
    refine .of_get a.keys fun key => ?_
    obtain ⟨owner, shows, -⟩ := a.shown key
    exact (shows.of_changesOnly d (a.owned.unstored _)).mono fun u => Or.imp_right (sub owner u)
  · rw [fields_setWrapper]
    obtain ⟨owner, shows, -⟩ := a.shown key
    exact Known.of_changesOnly shows d (a.owned.unstored _) _ List.mem_cons_self _
      (a.knows keyed key hk)

theorem fillModel_judged (hp : Judges s strict perform) (hs : s.Stratified)
    (free : s.Free (.model t)) (hc : c.schema = s) {p : Option Property}
    (g : st.options.Gathers strict p) {es : Entries} (held : st.heap.Holds (.record r))
    (hT : .record r ∉ T) (hF : ¬ F (.record r)) (keys : (st.heap.fields r).keys = es.keys)
    (o : Offered s st.heap F ((st.heap.fields r).keys.map (s.type t).slot?)
      (st.heap.fields r).values (es.map Prod.snd) T) :
    Judged (.record r :: T) st (Tree.admitted s strict t es [] es) (Filled s F T t r)
      (fillModel perform t (s.type t) r c st) := by
  let m := (st.heap.addModel t (.record r)).1
  let st₁ : State := { st with heap := (st.heap.addModel t (.record r)).2 }
  have ext : st.heap.Extends st₁.heap := st.heap.extends_addModel t (.record r)
  have o₁ := o.advance (ext.changesOnly []) (fun _ _ => List.not_mem_nil)
    fun _ _ => List.not_mem_nil
  obtain ⟨own, sub, a⟩ := Admitting.start (h := st₁.heap) o₁ keys (held.grows ext.grows) hT hF
  have entries : (st₁.heap.fields r).entries.map (fun e => (e.1, es.get e.1)) = es := by
    have map := Entries.map_get (keys ▸ (st.heap.fields r).nodup : es.keys.Nodup)
    rw [← keys, Fields.keys, List.map_map] at map
    exact map
  have admitted := admitEntries_judged c hp hs free hc (show st₁.options.Gathers strict p from g) a sub
    (m := m)
    (st.heap.index_addModel_lt t _) (st.heap.data_addModel t _)
  rw [entries] at admitted
  rw [fillModel_run perform hc free.initRules]
  refine .after st₁ (.record r :: T) (ext.changesOnly _) rfl ?_ fun _ h => Or.inl h
  rw [← bind_pure (Tree.admitted s strict t es [] es)]
  refine admitted.bind (fun _ h => Or.inl h) fun _ fields st₂ d noted ⟨written, done⟩ => ?_
  have model : st₂.heap.Holds (.model m) :=
    (show st₁.heap.Holds (.model m) from st.heap.index_addModel_lt t _).grows d.grows
  have filled := Filled.attach done sub model
    ((d.grows.type_eq (st.heap.index_addModel_lt t _)).trans (st.heap.type_addModel t _))
    ((d.grows.data_eq (st.heap.index_addModel_lt t _)).trans (st.heap.data_addModel t _))
  let st₃ : State := { st₂ with heap := st₂.heap.setWrapper r (some m) }
  exact .after st₃ _ (st₂.heap.changesOnly_setWrapper List.mem_cons_self _) rfl
    (.pure (c := c) filled) fun _ h => Or.inl h

theorem construct_judged (hp : Judges s strict perform) (hs : s.Stratified)
    (free : s.Free (.model t)) (hc : c.schema = s) (hstr : (s.type t).isStructured = true)
    {p : Option Property} (g : st.options.Gathers strict p) {es : Entries}
    (held : st.heap.Holds (.record r)) (hT : .record r ∉ T) (hF : ¬ F (.record r))
    (keys : (st.heap.fields r).keys = es.keys)
    (o : Offered s st.heap F ((st.heap.fields r).keys.map (s.type t).slot?)
      (st.heap.fields r).values (es.map Prod.snd) T) :
    Judged (.record r :: T) st
      (if (s.type t).allowsInstances then Tree.admitted s strict t es [] es
        else .raise (.noInstances (s.type t).name))
      (Filled s F T t r) (construct perform t (some (.record r)) c st) := by
  cases allowed : (s.type t).allowsInstances with
  | false =>
    rw [construct_barred perform hc allowed]
    exact .raise (c := c) _
  | true =>
    rw [construct_structured perform hc allowed hstr]
    exact fillModel_judged hp hs free hc g held hT hF keys o

theorem constructBare_judged (free : s.Free (.model t)) (hc : c.schema = s)
    (hstr : (s.type t).isStructured = false) (data : Option Value) :
    Judged [] st
      (if (s.type t).allowsInstances then pure () else .raise (.noInstances (s.type t).name))
      (fun _ _ _ => True) (construct perform t data c st) := by
  cases allowed : (s.type t).allowsInstances with
  | false =>
    rw [construct_barred perform hc allowed]
    exact .raise (c := c) _
  | true =>
    let v := data.getD .undefined
    let st₁ : State := { st with heap := (st.heap.addModel t v).2 }
    rw [construct_bare perform hc allowed hstr, holdData_run perform hc free.initRules]
    exact .after st₁ _ ((st.heap.extends_addModel t v).changesOnly _) rfl
      (.pure (c := c) trivial) fun _ h => Or.inl h

end Bodies

/-- At any depth, the operations come to the verdicts. -/
theorem perform_judges {s : Schema} (hs : s.Stratified) (strict : Bool) (depth : Nat) :
    Judges s strict (Engine.perform depth) := by
  induction depth with
  | zero =>
    exact ⟨fun _ _ _ _ _ => .exhausted rfl, fun _ _ => .exhausted rfl,
      fun _ _ _ _ _ _ _ _ => .exhausted rfl, fun _ _ _ _ _ _ _ _ _ => .exhausted rfl,
      fun _ _ _ => .exhausted rfl,
      fun _ _ _ _ => ⟨(.error .exhausted, _), .exhausted rfl, rfl⟩⟩
  | succ depth ih =>
    refine ⟨fun hc hq type g o => coerceBy_judged ih hc hq type g o, ?_,
      fun hc free hq type wraps hv g o => wrapUnder_judged ih free hc hq type wraps hv g o,
      fun hc free hstr g held hT hF keys o =>
        construct_judged ih hs free hc hstr g held hT hF keys o,
      fun hc free hstr => constructBare_judged free hc hstr _,
      fun hc hq g o => writeProperty_judged ih hc hq g o _⟩
    intro c st t v hc free
    subst hc
    show Judged [] st _ _ (coerceUnder (Engine.perform depth) t v c st)
    rw [coerceUnder_run (Engine.perform depth) c st free.ruleFree.coerce]
    exact .pure (c := c) ⟨rfl, rfl⟩

end Engine

end Overlay
