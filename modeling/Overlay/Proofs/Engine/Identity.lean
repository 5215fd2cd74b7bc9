import Overlay.Proofs.Engine.Acts
import Overlay.Proofs.Engine.Depth
import Overlay.Proofs.Engine.Wrapping

/-!
# The model of a record

Wrapping a record attaches a model to it.  From then on wrapping the record gives this model, as
long as something holds the model and nothing else holds the record: whatever is done then with
other values writes none from which the record is reached, and so it leaves the record alone.

* `Engine.wrap_attached` : what wrapping a record gives is attached to it;
* `Engine.Attended` : what holds while a record is left alone; reading and writing its own model and
  doing anything with other values keeps the model attached;
* `Engine.wrap_keeps_identity` : **back-references are coherent, and wrapping preserves identity.**

A model may not be stored in a field of its own record: reading the field by another type takes the
model apart (`Engine.wrap_loses_stored_model`).
-/

namespace Overlay.Engine

variable {s : Schema} {c : Context} {st st' : State} {t : TypeId} {r : RecordId} {m : ModelId}
  {v : Value}

/-! ### Rules that change nothing -/

theorem denote_heap (form : Heap → Constant → Value) (cs : Constants) (t : TypeId) (v : Value)
    (c : Context) (st : State) : (denote form cs t v c st).2.heap = st.heap := by
  unfold denote
  split
  · rfl
  · simp only [bind_run, heap, schema]
    rcases cs.denoted? c.schema st.heap t v with _ | constant
    · exact invalid_heap v c st
    · rfl

theorem checkConstant_heap (cs : Constants) (m : ModelId) (c : Context) (st : State) :
    (checkConstant cs m c st).2.heap = st.heap := by
  simp only [checkConstant, bind_run, heap]
  split
  · have same := invalid_heap (st.heap.data m) c st
    rw [bind_run]
    rcases he : invalid (st.heap.data m) c st with ⟨_ | _, st₁⟩ <;> rw [he] at same <;> exact same
  · rfl

theorem runInit_heap (perform : Perform) (m : ModelId) {rules : List Rule}
    (h : ∀ rule ∈ rules, rule.OfConstants) (c : Context) (st : State) :
    (runInit perform m rules c st).2.heap = st.heap := by
  induction rules generalizing st with
  | nil => rfl
  | cons rule rules ih =>
    obtain ⟨cs, rfl⟩ := h rule List.mem_cons_self
    have same := checkConstant_heap cs m c st
    unfold runInit
    simp only [bind_run]
    rcases he : checkConstant cs m c st with ⟨_ | _, st₁⟩ <;> rw [he] at same
    · exact same
    · exact (ih (fun rule hr => h rule (List.mem_cons_of_mem _ hr)) st₁).trans same

/-! ### Making the model of a record -/

theorem construct_attached (init : ∀ rule ∈ s.initRules t, rule.OfConstants) (hc : c.schema = s)
    {depth : Nat}
    (structured : (s.type t).isStructured = true) (there : st.heap.Holds (.record r))
    (h : construct (Engine.perform depth) t (some (.record r)) c st = (.ok m, st')) :
    st'.heap.attached? r = some m := by
  obtain ⟨-, made⟩ := construct_ok hc h
  rw [if_pos structured] at made
  obtain ⟨r', st₁, ⟨⟩, filled⟩ := made
  obtain ⟨rfl, st₂, admitted, ran⟩ := fillModel_ok hc filled
  have grows := (st.heap.extends_addModel t (.record r)).grows.trans
    ((admitEntries_steady (perform_steady s depth) _ t _).grows hc admitted)
  have same : st'.heap = st₂.heap.setWrapper r (some ⟨st.heap.models.size⟩) :=
    (congrArg (fun run => run.2.heap) ran).symm.trans
      (runInit_heap (Engine.perform depth) _ init c _)
  rw [same, Heap.attached?_setWrapper, if_pos ⟨rfl, there.grows grows⟩]
  rfl

/-! ### Finding the model of a record -/

theorem liveWrapper?_of_attached {h : Heap} (order : InOrder s h) (hc : c.schema = s)
    (there : ∀ v ∈ c.held ++ s.heldValues, h.Holds v) (attached : h.attached? r = some m)
    (held : .model m ∈ c.held) : liveWrapper? c h (.record r) = some m := by
  refine Heap.wrapper?_of_mem order.closed (fun v hv => ?_) attached
    (List.mem_append_left _ (List.mem_cons_of_mem _ held))
  rcases List.mem_cons.1 hv with rfl | hv
  · exact Heap.holds_of_attached? attached
  · exact there v (hc ▸ hv)

theorem wrap_run (t : TypeId) (v : Value) (c : Context) (st : State) :
    ∃ d, Engine.wrap (.model t) v c st = wrapUnder (Engine.perform d) t v c st := by
  obtain ⟨d, hd⟩ := c.schema.budget_eq_succ 0
  refine ⟨d, ?_⟩
  change Engine.perform (c.schema.budget 0) (.wrap (.model t) v) c st = _
  rw [hd]
  rfl

/-- The model that is found from a record is what wrapping the record gives, and it wraps to itself
by a type of which it is an instance. -/
theorem wrap_live (ht : c.schema.WrapsPlainly t)
    (live : liveWrapper? c st.heap (.record r) = some m)
    (inst : c.schema.derivesFrom (st.heap.type m) t = true) :
    Engine.wrap (.model t) (.record r) c st = (.ok (.model m), st) ∧
      Engine.wrap (.model t) (.model m) c st = (.ok (.model m), st) := by
  obtain ⟨d, record⟩ := wrap_run t (.record r) c st
  obtain ⟨d', model⟩ := wrap_run t (.model m) c st
  rw [record, model]
  refine ⟨?_, wrapUnder_instance (Or.inl ht.wrap) inst⟩
  rw [wrapUnder_run _ c st (Or.inl ht.wrap) ht.coerce rfl, if_neg (by exact Bool.false_ne_true),
    wrapData_run _ c st ht.wrap rfl fun _ => rfl, live]

/-- What wrapping a record gives is attached to the record, and an instance of the type if any model
found before was one. -/
theorem wrap_attached (hs : s.Built) (hc : c.schema = s) (ht : s.WrapsPlainly t)
    (structured : (s.type t).isStructured = true) (there : st.heap.Holds (.record r))
    (inst : ∀ m, liveWrapper? c st.heap (.record r) = some m →
      s.derivesFrom (st.heap.type m) t = true)
    (run : Engine.wrap (.model t) (.record r) c st = (.ok v, st')) :
    ∃ m, v = .model m ∧ st'.heap.attached? r = some m ∧
      s.derivesFrom (st'.heap.type m) t = true := by
  subst hc
  obtain ⟨d, e⟩ := wrap_run t (.record r) c st
  rw [e, wrapUnder_run _ c st (Or.inl ht.wrap) ht.coerce rfl, if_neg (by exact Bool.false_ne_true),
    wrapData_run _ c st ht.wrap rfl fun _ => rfl] at run
  rcases live : liveWrapper? c st.heap (.record r) with _ | m <;> rw [live] at run
  · obtain ⟨m, st₁, made, run⟩ := bind_ok run
    cases run
    refine ⟨m, rfl, ?_, create_type made ▸ c.schema.derivesFrom_self t⟩
    cases d with
    | zero => cases made
    | succ d => exact construct_attached (hs.initRules t) rfl structured there made
  · cases run
    obtain ⟨r', e, attached⟩ := attached?_of_liveWrapper? live
    cases e
    exact ⟨m, rfl, attached, inst m live⟩

/-! ### While a record is left alone -/

/-- The model of the record is in use and attached to it, and what else is used does not lead to the
record. -/
structure Attended (s : Schema) (r : RecordId) (m : ModelId) (c : Context) (h : Heap) : Prop where
  /-- The types. -/
  types : c.schema = s
  /-- They have no hooks. -/
  built : s.Built
  /-- The heap is in order. -/
  order : InOrder s h
  /-- The model is attached. -/
  attached : h.attached? r = some m
  /-- It is in use. -/
  held : .model m ∈ c.held
  /-- What is in use is there. -/
  there : ∀ v ∈ c.held ++ s.heldValues, h.Holds v
  /-- What types may use does not lead to the record. -/
  used : ∀ v ∈ s.usedValues, h.Avoids r v
  /-- A field of the record holds the record itself or what does not lead to it. -/
  inside : ∀ v ∈ (h.fields r).values, v = .record r ∨ h.Avoids r v

namespace Attended

variable {α : Type} {vs : List Value}

theorem holding {h : Heap} (att : Attended s r m c h) (hv : ∀ v ∈ vs, h.Holds v) :
    Attended s r m { c with held := vs ++ c.held } h where
  types := att.types
  built := att.built
  order := att.order
  attached := att.attached
  held := List.mem_append_right _ att.held
  there v hv' := by
    have := att.there v
    simp only [List.mem_append] at hv' this
    grind
  used := att.used
  inside := att.inside

theorem model_there {h : Heap} (att : Attended s r m c h) : h.Holds (.model m) :=
  att.there _ (List.mem_append_left _ att.held)

theorem data {h : Heap} (att : Attended s r m c h) : h.record? m = some r :=
  h.record?_of_data (att.order.tied r m att.attached).2.1

theorem holding_model {h : Heap} (att : Attended s r m c h) :
    Attended s r m { c with held := [.model m] ++ c.held } h :=
  att.holding fun _ hv => List.mem_singleton.1 hv ▸ att.model_there

theorem live {h : Heap} (att : Attended s r m c h) : liveWrapper? c h (.record r) = some m :=
  liveWrapper?_of_attached att.order att.types att.there att.attached att.held

/-- What is done with values that do not lead to the record leaves its model attached, and gives
such values. -/
theorem steady {act : Engine α} {out : α → List Value} (att : Attended s r m c st.heap)
    (h : Steady s vs act out) (hv : ∀ v ∈ vs, st.heap.Avoids r v) :
    (act c st).2.heap.attached? r = some m ∧
      ∀ a, (act c st).1 = .ok a → ∀ v ∈ out a, st.heap.Avoids r v := by
  have houses : st.heap.Houses (· = .record r) := by
    rintro w rfl
    exact ⟨Heap.holds_of_attached? att.attached, Or.inl rfl⟩
  obtain ⟨keeps, gives⟩ := h (.missing s houses) c st att.types ⟨.refl att.order.tied, fun v hv' =>
    Heap.Avoids.misses ((List.mem_append.1 hv').elim (hv v) (att.used v)), trivial⟩
  exact ⟨(keeps.ok.attached r rfl).trans att.attached, fun a ha v hv =>
    .of_misses (gives a ha v hv)⟩

/-- Wrapping the record finds its model or fails, whatever the type. -/
theorem wrap_record {depth : Nat} (att : Attended s r m c st.heap) (t : TypeId) :
    (Engine.perform depth (.wrap (.model t) (.record r)) c st).2.heap = st.heap := by
  cases depth with
  | zero => rfl
  | succ depth =>
    show (wrapUnder (Engine.perform depth) t (.record r) c st).2.heap = st.heap
    have sound := att.built.soundAt t
    rw [← att.types] at sound
    by_cases custom : ∃ rule, (c.schema.type t).wrap = .custom rule
    · obtain ⟨rule, hw⟩ := custom
      obtain ⟨cs, rfl⟩ := sound.wrap rule hw
      unfold wrapUnder
      rw [bind_run]
      dsimp only [schema]
      rw [hw]
      exact denote_heap _ cs t _ c st
    · have plain : (c.schema.type t).wrap = .standard ∨ (c.schema.type t).wrap = .disabled := by
        cases hw : (c.schema.type t).wrap with
        | custom rule => exact absurd ⟨rule, hw⟩ custom
        | standard => exact Or.inl rfl
        | disabled => exact Or.inr rfl
      have coerce : (c.schema.type t).coerce = none := by
        rw [att.types] at custom ⊢
        exact att.built.coerce_eq_none fun rule hw => custom ⟨rule, hw⟩
      rw [wrapUnder_run _ c st plain coerce rfl, if_neg (by exact Bool.false_ne_true)]
      rcases wrapData_steps (Engine.perform depth) c st plain (.record r) with ⟨-, e⟩ | ⟨fault, e⟩ |
        e | ⟨m', -, e⟩ | ⟨-, -, none, -⟩
      · rw [e]
      · rw [e]
      · rw [e]
        exact invalid_heap _ c st
      · rw [e]
      · cases att.live.symm.trans none

theorem represent_record {depth : Nat} (att : Attended s r m c st.heap) (t : TypeId) :
    (represent (Engine.perform depth) t (.record r) c st).2.heap = st.heap := by
  unfold represent
  rw [bind_run]
  dsimp only [schema]
  split
  · have apart : Attended s r m c { st with options := .throwing }.heap := att
    exact apart.wrap_record t
  · rw [bind_run, holding_wrapper?, att.live]
    rfl

/-- What is read from the model: nothing, the record itself, or what does not lead to it. -/
theorem field {h : Heap} (att : Attended s r m c h) (p : Property) :
    (fieldOf h m p).isNothing = true ∨ fieldOf h m p = .record r ∨ h.Avoids r (fieldOf h m p) := by
  rw [fieldOf, att.data, Option.elim_some]
  rcases (h.fields r).get_mem_values p.storageKey with mem | none
  · exact Or.inr (att.inside _ mem)
  · rw [none]
    exact Or.inl rfl

theorem get_own {depth : Nat} (att : Attended s r m c st.heap) {p : Property} {i : Nat}
    (plain : p.PlainBelow i) :
    (Engine.perform depth (.get m p) c st).2.heap.attached? r = some m := by
  cases depth with
  | zero => exact att.attached
  | succ depth =>
    show (readProperty (Engine.perform depth) m p c st).2.heap.attached? r = some m
    cases ht : p.type with
    | builtin b =>
      rw [readProperty_builtin _ c st m plain.getter ht]
      exact att.attached
    | adapter a => exact (plain.types _ (List.mem_cons.2 (Or.inl ht.symm))).elim
    | model t =>
      have att' := att.holding_model
      rw [readProperty_model _ c st m plain.getter ht]
      split
      · exact att.attached
      · rename_i wraps
        split
        · exact att.attached
        · rcases att.field p with nothing | self | avoids
          · rw [nothing] at wraps
            exact absurd rfl wraps
          · rw [self, att'.represent_record t]
            exact att.attached
          · refine (att'.steady (represent_steady (perform_steady s depth) t _) ?_).1
            exact fun v hv => List.mem_singleton.1 hv ▸ avoids

theorem set_own {depth : Nat} (att : Attended s r m c st.heap) {p : Property} {i : Nat}
    (plain : p.PlainBelow i) (hv : st.heap.Avoids r v) :
    (Engine.perform depth (.set m p v) c st).2.heap.attached? r = some m := by
  cases depth with
  | zero => exact att.attached
  | succ depth =>
    have att' := att.holding_model
    show (writeProperty (Engine.perform depth) m p v c st).2.heap.attached? r = some m
    have kept := (att'.steady (prepared_steady (perform_steady s depth) p v) fun w hw =>
      List.mem_singleton.1 hw ▸ hv).1
    rw [writeProperty_run _ plain.setter]
    rcases run : prepared (Engine.perform depth) p v { c with held := [.model m] ++ c.held } st with
      ⟨fault | u, st'⟩
    · rw [run] at kept
      exact kept
    · rw [run] at kept
      dsimp only [wrote]
      cases st'.heap.record? m with
      | none => exact kept
      | some r' => exact (Heap.attached?_insert ..).trans kept

theorem get {depth : Nat} (att : Attended s r m c st.heap) {x : ModelId}
    (hx : x = m ∨ st.heap.Avoids r (.model x)) {p : Property} {i : Nat} (plain : p.PlainBelow i) :
    (Engine.perform depth (.get x p) c st).2.heap.attached? r = some m := by
  rcases hx with rfl | hx
  · exact att.get_own plain
  · refine (att.steady (perform_steady s depth (.get x p)) ?_).1
    simp [Operation.given, Property.usedValues, plain.getter, plain.setter, hx]

theorem set {depth : Nat} (att : Attended s r m c st.heap) {x : ModelId}
    (hx : x = m ∨ st.heap.Avoids r (.model x)) {p : Property} {i : Nat} (plain : p.PlainBelow i)
    (hv : st.heap.Avoids r v) :
    (Engine.perform depth (.set x p v) c st).2.heap.attached? r = some m := by
  rcases hx with rfl | hx
  · exact att.set_own plain hv
  · refine (att.steady (perform_steady s depth (.set x p v)) ?_).1
    simp [Operation.given, Property.usedValues, plain.getter, plain.setter, hx, hv]

theorem call {depth : Nat} (att : Attended s r m c st.heap) {x : ModelId} {name : String}
    {arguments : List Value} (hx : x = m ∨ st.heap.Avoids r (.model x))
    (hv : ∀ v ∈ arguments, st.heap.Avoids r v)
    (there : ∀ v ∈ Value.model x :: arguments, st.heap.Holds v)
    (accessor : ∀ method, s.callee? (st.heap.type x) name ≠ some (.method method)) :
    (Engine.perform depth (.call x name arguments) c st).2.heap.attached? r = some m := by
  cases depth with
  | zero => exact att.attached
  | succ depth =>
    have att' := att.holding there
    obtain rfl := att.types
    show (callMethod (Engine.perform depth) x name arguments c st).2.heap.attached? r = some m
    simp only [callMethod, Engine.holding, bind_run, heap, schema]
    rcases hc : c.schema.callee? (st.heap.type x) name with _ | p | p | method
    · exact att.attached
    · exact att'.get hx (att.built.plainBelow_of_callee? (Or.inl hc))
    · have first : st.heap.Avoids r (arguments.headD .undefined) := by
        cases arguments with
        | nil => exact .scalar fun _ => trivial
        | cons w _ => exact hv w List.mem_cons_self
      have apart : Attended c.schema r m { c with held := .model x :: arguments ++ c.held }
        { st with options := .throwing }.heap := att'
      dsimp only
      rw [bind_pure_heap (Engine.apart _) fun _ => Value.undefined, apart_heap]
      exact apart.set hx (att.built.plainBelow_of_callee? (Or.inr hc)) first
    · exact absurd hc (accessor method)

end Attended

/-! ### Acts that spare a record -/

/-- The act leaves the record and its model to themselves, while the model is in use: nothing else
in use leads to the record, and the act is handed neither of the two, unless it wraps one of them by
the type.  It calls no methods. -/
structure Spares (s : Schema) (t : TypeId) (r : RecordId) (m : ModelId) (c : Context) (h : Heap)
    (a : Act) : Prop where
  /-- The model is in use. -/
  held : .model m ∈ c.held
  /-- Nothing else in use leads to the record. -/
  alone : ∀ v, h.Reachable (a.uses ++ (c.held ++ s.heldValues)) v → v ≠ .record r → v ≠ .model m →
    h.Avoids r v
  /-- The two are handed to the type only. -/
  apart : (∀ v ∈ a.handed, v ≠ .record r ∧ v ≠ .model m) ∨
    a = .ask (.wrap (.model t) (.record r)) ∨ a = .ask (.wrap (.model t) (.model m))
  /-- Only accessors are called. -/
  accessor : ∀ x name arguments, a = .call x name arguments →
    ∀ method, s.callee? (h.type x) name ≠ some (.method method)

/-- Acts that spare the record, one after another, while no field of it holds its own model. -/
def Spared (s : Schema) (t : TypeId) (r : RecordId) (m : ModelId) : Heap → Heap → Prop :=
  Relation.ReflTransGen (Acts s fun c h a =>
    Spares s t r m c h a ∧ .model m ∉ (h.fields r).values)

/-- An act spares a record if all that is in use are the record, its model and scalars. -/
theorem Spares.of_cells {h : Heap} {a : Act} (cells : List Value) (held : .model m ∈ c.held)
    (used : ∀ v ∈ a.uses ++ (c.held ++ s.heldValues), v ∈ cells)
    (inside : ∀ v ∈ cells, ∀ w ∈ h.children v, w ∈ cells)
    (two : ∀ v ∈ cells, v = .record r ∨ v = .model m ∨ Heap.empty.Holds v)
    (apart : ∀ v ∈ a.handed, v ≠ .record r ∧ v ≠ .model m)
    (accessor : ∀ x name arguments, a ≠ .call x name arguments) : Spares s t r m c h a where
  held := held
  alone v reach hr hm := by
    rcases two v (reach.mem_cells used inside) with e | e | none
    · exact absurd e hr
    · exact absurd e hm
    · refine .scalar fun heap => ?_
      cases v <;> trivial
  apart := Or.inl apart
  accessor x name arguments e := absurd e (accessor x name arguments)

theorem Spares.attended {a : Act} (spares : Spares s t r m c st.heap a) (hs : s.Built)
    (hc : c.schema = s) (order : InOrder s st.heap) (attached : st.heap.attached? r = some m)
    (there : ∀ v ∈ a.uses ++ (c.held ++ s.heldValues), st.heap.Holds v)
    (unstored : .model m ∉ (st.heap.fields r).values) : Attended s r m c st.heap where
  types := hc
  built := hs
  order := order
  attached := attached
  held := spares.held
  there v hv := there v (List.mem_append_right _ hv)
  used v hv := by
    have root : st.heap.Reachable (a.uses ++ (c.held ++ s.heldValues)) v :=
      .root (List.mem_append_right _ (List.mem_append_right _ (Schema.held_of_used hv)))
    obtain ⟨u, cs, hw, constant, hk, rfl⟩ := hs.constant_of_used hv
    refine spares.alone _ root nofun fun e => ?_
    -- constants are instances of types without properties
    obtain ⟨plain, made⟩ := order.furnished u cs hw
    have structured := (order.tied r m attached).2.2
    obtain rfl : constant.model = m := Value.model.inj e
    rw [(made constant hk).2, plain] at structured
    cases structured
  inside v hv := by
    have model : st.heap.Reachable (a.uses ++ (c.held ++ s.heldValues)) (.model m) :=
      .root (List.mem_append_right _ (List.mem_append_left _ spares.held))
    have record : st.heap.Reachable (a.uses ++ (c.held ++ s.heldValues)) (.record r) :=
      model.child (List.mem_singleton.2 (order.tied r m attached).2.1.symm)
    by_cases self : v = .record r
    · exact Or.inl self
    · exact Or.inr (spares.alone v (record.child hv) self fun e => unstored (e ▸ hv))

theorem Attended.named (att : Attended s r m c st.heap) {x : ModelId} (name : String)
    (hx : x = m ∨ st.heap.Avoids r (.model x)) :
    (Engine.get x name c st).2.heap.attached? r = some m ∧
      (st.heap.Avoids r v → (Engine.set x name v c st).2.heap.attached? r = some m) := by
  have hs := att.built
  rw [← att.types] at hs
  unfold Engine.get Engine.set
  rw [bind_run, bind_run]
  rcases hp : (c.schema.type (st.heap.type x)).property? name with _ | p
  · rw [property_missing hp]
    exact ⟨att.attached, fun _ => att.attached⟩
  · rw [property_found hp]
    exact ⟨att.get hx (hs.plainBelow_size hp), att.set hx (hs.plainBelow_size hp)⟩

/-- Whatever act spares the record leaves its model attached. -/
theorem Spares.keeps {a : Act} (spares : Spares s t r m c st.heap a)
    (att : Attended s r m c st.heap) (ht : s.WrapsPlainly t)
    (inst : s.derivesFrom (st.heap.type m) t = true)
    (there : ∀ v ∈ a.uses ++ (c.held ++ s.heldValues), st.heap.Holds v) :
    (a.run c st).2.heap.attached? r = some m := by
  have avoids : ∀ v ∈ a.uses, v ≠ .record r → v ≠ .model m → st.heap.Avoids r v := fun v hv =>
    spares.alone v (.root (List.mem_append_left _ hv))
  have model : ∀ x, .model x ∈ a.uses → x = m ∨ st.heap.Avoids r (.model x) := by
    intro x hx
    by_cases e : x = m
    · exact Or.inl e
    · exact Or.inr (avoids _ hx Value.noConfusion fun h => e (Value.model.inj h))
  rcases spares.apart with apart | rfl | rfl
  · have others : ∀ v ∈ a.handed, st.heap.Avoids r v := fun v hv =>
      avoids v (List.mem_append_right _ hv) (apart v hv).1 (apart v hv).2
    -- acts on no model in particular, and snapshots, which only add cells
    have steady : a.target? = none → a.keeps s = [] →
        (a.run c st).2.heap.attached? r = some m := by
      intro none nothing
      refine (att.steady a.steady ?_).1
      simpa [Act.uses, none, nothing] using others
    have copied : ∀ roots diagnostics v,
        (Snapshot.take c.schema roots st.heap diagnostics v).2.heap.attached? r = some m :=
      fun roots diagnostics v => ((Snapshot.take_extends c.schema roots st.heap diagnostics
        v).attached?_eq (Heap.holds_of_attached? att.attached)).trans att.attached
    cases a with
    | ask command =>
      cases command with
      | create t data => exact steady rfl rfl
      | wrap t v => exact steady rfl rfl
      | set x name v =>
        show ((Engine.set x name v >>= fun _ => pure Value.undefined) c st).2.heap.attached? r = _
        rw [bind_pure_heap (Engine.set x name v) fun _ => Value.undefined]
        exact (att.named name (model x List.mem_cons_self)).2 (others v List.mem_cons_self)
      | get x name => exact (att.named (v := .undefined) name (model x List.mem_cons_self)).1
      | clean x diagnostics =>
        exact copied (c.held ++ c.schema.heldValues) diagnostics (.model x)
    | wrapModel t v => exact steady rfl rfl
    | call x name arguments =>
      exact att.call (model x List.mem_cons_self) others
        (fun v hv => there v (List.mem_append_left _ hv)) (spares.accessor x name arguments rfl)
    | copy v diagnostics => exact copied _ diagnostics _
    | stringify v pretty => exact att.attached
  · show (Engine.wrap _ _ c st).2.heap.attached? r = some m
    rw [(wrap_live (att.types ▸ ht) att.live (att.types ▸ inst)).1]
    exact att.attached
  · show (Engine.wrap _ _ c st).2.heap.attached? r = some m
    rw [(wrap_live (att.types ▸ ht) att.live (att.types ▸ inst)).2]
    exact att.attached

theorem Spared.keeps {h h' : Heap} (spared : Spared s t r m h h') (hs : s.Built)
    (ht : s.WrapsPlainly t) (order : InOrder s h) (attached : h.attached? r = some m)
    (inst : s.derivesFrom (h.type m) t = true) :
    InOrder s h' ∧ h'.attached? r = some m ∧ s.derivesFrom (h'.type m) t = true := by
  induction spared with
  | refl => exact ⟨order, attached, inst⟩
  | tail _ act ih =>
    obtain ⟨order, attached, inst⟩ := ih
    have instAfter : ∀ {h h' : Heap}, h.attached? r = some m → InOrder s h → h.Grows h' →
        s.derivesFrom (h.type m) t = true → s.derivesFrom (h'.type m) t = true :=
      fun attached order grows inst => grows.type_eq (order.tied r m attached).1 ▸ inst
    refine ⟨order.acts act, ?_, instAfter attached order act.grows inst⟩
    cases act with
    | act types there allowed =>
      have att := allowed.1.attended hs types order attached there allowed.2
      exact allowed.1.keeps att ht inst there
    | build grows same closed => exact (same r).trans attached

/-! ### What a program sees -/

/-- **Back-references are coherent, and wrapping preserves identity.**  A program makes types
without hooks and enumerations, and does whatever it likes with them.

Whenever a model is found from a record, it wraps that very record, and its type has properties.

Let a type with properties wrap plainly, and let the model that is found from a record, if there is
one, be an instance of it.  Wrapping the record, if it does not fail, gives a model of this record,
and it is this model that is found from the record then.  From then on wrapping gives the same model
again, be it handed the record or the model: after any acts that spare the record, while the model
is in use and no field of the record holds it. -/
theorem wrap_keeps_identity {h : Heap} (lives : Lives s h) :
    (∀ roots r m, h.wrapper? roots r = some m →
      h.record? m = some r ∧ (s.type (h.type m)).isStructured = true) ∧
    ∀ t r c st v st', s.WrapsPlainly t → (s.type t).isStructured = true → c.schema = s →
      st.heap = h → (∀ w ∈ .record r :: (c.held ++ s.heldValues), h.Holds w) →
      (∀ m, liveWrapper? c h (.record r) = some m → s.derivesFrom (h.type m) t = true) →
      Engine.wrap (.model t) (.record r) c st = (.ok v, st') →
      ∃ m, v = .model m ∧ st'.heap.record? m = some r ∧
        (∀ roots, .model m ∈ roots → (∀ w ∈ roots, st'.heap.Holds w) →
          st'.heap.wrapper? roots r = some m) ∧
        ∀ h', Spared s t r m st'.heap h' → ∀ c₁ st₁, c₁.schema = s → st₁.heap = h' →
          .model m ∈ c₁.held → (∀ w ∈ c₁.held ++ s.heldValues, h'.Holds w) →
            Engine.wrap (.model t) (.record r) c₁ st₁ = (.ok (.model m), st₁) ∧
              Engine.wrap (.model t) (.model m) c₁ st₁ = (.ok (.model m), st₁) := by
  have hs := lives.built
  have order := lives.inOrder
  refine ⟨fun roots r m hm => order.tied.wrapper? hm, ?_⟩
  intro t r c st v st' ht structured hc hst there inst run
  subst hst
  obtain ⟨m, rfl, attached, inst⟩ :=
    wrap_attached hs hc ht structured (there _ List.mem_cons_self) inst run
  have order : InOrder s st'.heap := by
    have act : Acts s (fun _ _ _ => True) st.heap _ :=
      @Acts.act s _ (.ask (.wrap (.model t) (.record r))) c st hc there trivial
    have after := order.acts act
    rw [show (Act.ask (.wrap (.model t) (.record r))).run c st = _ from run] at after
    exact after
  obtain ⟨-, data, -⟩ := order.tied r m attached
  refine ⟨m, rfl, by rw [Heap.record?, data]; rfl, fun roots hm there =>
    Heap.wrapper?_of_mem order.closed there attached hm, ?_⟩
  intro h' spared c₁ st₁ hc₁ hst₁ held there
  subst hst₁
  obtain ⟨order, attached, inst⟩ := spared.keeps hs ht order attached inst
  have live := liveWrapper?_of_attached order hc₁ there attached held
  exact wrap_live (hc₁ ▸ ht) live (hc₁ ▸ inst)

/-! ### Parcels -/

/-- What declares an address. -/
def addresses : Extension :=
  { Extension.empty with name := some "Address", properties := [("text", .marker .string)] }

/-- What declares a parcel: what is in it may be anything, and can also be read as an address. -/
def parcels : Extension :=
  { Extension.empty with
    name := some "Parcel"
    properties := [
      ("content", .detailed (some (.marker .object)) none (some "in") none none true),
      ("address", .detailed (some (.type (.model ⟨1⟩))) none (some "in") none none true)] }

/-- The root, addresses and parcels. -/
def parcelSchema : Schema :=
  let s := (Schema.initial.addModel (.extended .root .root addresses
    [⟨"text", "text", .builtin .string, [], none, none, true⟩])).2
  (s.addModel (.extended .root .root parcels [
    ⟨"content", "in", .builtin .object, [], none, none, true⟩,
    ⟨"address", "in", .model ⟨1⟩, [], none, none, true⟩])).2

/-- The record and its parcel are in use. -/
def parcelInUse : Context := ⟨parcelSchema, [.record ⟨0⟩, .model ⟨0⟩]⟩

/-- The record is wrapped as a parcel. -/
def packed : Except Fault Value × State :=
  (Act.ask (.wrap (.model ⟨2⟩) (.record ⟨0⟩))).run ⟨parcelSchema, [.record ⟨0⟩]⟩
    ⟨stray, .throwing, []⟩

theorem stray_lives : Lives parcelSchema stray := by
  have made : Lives parcelSchema .empty :=
    (Lives.start.extend .root addresses (by decide) ⟨rfl, nofun, rfl, rfl⟩ rfl (by decide)).extend
      .root parcels (by decide) ⟨rfl, nofun, rfl, rfl⟩ rfl (by decide)
  refine made.act (.build (Heap.extends_addRecord .empty .empty).grows (fun r => ?_) fun _ => ?_)
  · exact Heap.attached?_addRecord .empty .empty r
  · exact Heap.closed_of_cells (by decide)

theorem parcel_plain : parcelSchema.WrapsPlainly ⟨2⟩ := ⟨rfl, rfl⟩

/-- Something else is put into the parcel. -/
def refilled : Except Fault Value × State :=
  (Act.ask (.set ⟨0⟩ "content" (.bool true))).run parcelInUse packed.2

/-- The parcel is found again after that. -/
theorem wrap_keeps_identity_refilled :
    packed.1 = .ok (.model ⟨0⟩) ∧ packed.2.heap.record? ⟨0⟩ = some ⟨0⟩ ∧
      Engine.wrap (.model ⟨2⟩) (.record ⟨0⟩) parcelInUse refilled.2 =
        (.ok (.model ⟨0⟩), refilled.2) := by
  have result : packed.1 = .ok (.model ⟨0⟩) := by decide +kernel
  have alone : liveWrapper? ⟨parcelSchema, [.record ⟨0⟩]⟩ stray (.record ⟨0⟩) = none := by
    decide +kernel
  obtain ⟨m, e, record, -, again⟩ := (wrap_keeps_identity stray_lives).2 ⟨2⟩ ⟨0⟩
    ⟨parcelSchema, [.record ⟨0⟩]⟩ ⟨stray, .throwing, []⟩ (.model ⟨0⟩) packed.2 parcel_plain
    (by decide) rfl rfl (by decide +kernel) (fun m live => nomatch alone.symm.trans live)
    (Prod.ext result rfl)
  cases e
  have act : Acts parcelSchema (fun c h a => Spares parcelSchema ⟨2⟩ ⟨0⟩ ⟨0⟩ c h a ∧
      .model ⟨0⟩ ∉ (h.fields ⟨0⟩).values) packed.2.heap refilled.2.heap :=
    .act rfl (by decide +kernel) ⟨.of_cells [.record ⟨0⟩, .model ⟨0⟩, .bool true] (by decide)
      (by decide +kernel) (by decide +kernel) (by decide) (by decide) nofun, by decide +kernel⟩
  exact ⟨result, record, (again refilled.2.heap (.single act) parcelInUse refilled.2 rfl rfl
    (by decide) (by decide +kernel)).1⟩

/-! #### A parcel in itself -/

/-- The parcel is put into itself. -/
def looped : Except Fault Value × State :=
  (Act.ask (.set ⟨0⟩ "content" (.model ⟨0⟩))).run parcelInUse packed.2

/-- What is in it is read as an address; that fails, but not before the parcel is taken apart. -/
def misread : Except Fault Value × State :=
  (Act.ask (.get ⟨0⟩ "address")).run parcelInUse looped.2

example : misread.1 = .error (.error (.unrecognizedKey "in")) := by decide +kernel

/-- It is emptied. -/
def emptied : Except Fault Value × State :=
  (Act.ask (.set ⟨0⟩ "content" .null)).run parcelInUse misread.2

/-- A record whose model is stored in one of its own fields: wrapping gives the model, but after
acts that spare the record it gives another one. -/
theorem wrap_loses_stored_model :
    Lives parcelSchema looped.2.heap ∧ parcelSchema.WrapsPlainly ⟨2⟩ ∧
      (parcelSchema.type ⟨2⟩).isStructured = true ∧
      Engine.wrap (.model ⟨2⟩) (.record ⟨0⟩) parcelInUse looped.2 = (.ok (.model ⟨0⟩), looped.2) ∧
      Relation.ReflTransGen (Acts parcelSchema (Spares parcelSchema ⟨2⟩ ⟨0⟩ ⟨0⟩)) looped.2.heap
        emptied.2.heap ∧
      (Engine.wrap (.model ⟨2⟩) (.record ⟨0⟩) parcelInUse emptied.2).1 = .ok (.model ⟨2⟩) := by
  have packs : Acts parcelSchema (fun _ _ _ => True) stray packed.2.heap :=
    @Acts.act parcelSchema _ (.ask (.wrap (.model ⟨2⟩) (.record ⟨0⟩))) ⟨parcelSchema, [.record ⟨0⟩]⟩
      ⟨stray, .throwing, []⟩ rfl (by decide +kernel) trivial
  have loops : Acts parcelSchema (fun _ _ _ => True) packed.2.heap looped.2.heap :=
    .act rfl (by decide +kernel) trivial
  have live : liveWrapper? parcelInUse looped.2.heap (.record ⟨0⟩) = some ⟨0⟩ := by decide +kernel
  have again := (wrap_live parcel_plain live (by decide +kernel)).1
  have reads : Acts parcelSchema (Spares parcelSchema ⟨2⟩ ⟨0⟩ ⟨0⟩) looped.2.heap misread.2.heap :=
    .act rfl (by decide +kernel) (.of_cells [.record ⟨0⟩, .model ⟨0⟩] (by decide) (by decide +kernel)
      (by decide +kernel) (by decide) (by decide) nofun)
  have empties : Acts parcelSchema (Spares parcelSchema ⟨2⟩ ⟨0⟩ ⟨0⟩) misread.2.heap
      emptied.2.heap :=
    .act rfl (by decide +kernel) (.of_cells [.record ⟨0⟩, .model ⟨0⟩, .null] (by decide)
      (by decide +kernel) (by decide +kernel) (by decide) (by decide) nofun)
  exact ⟨(stray_lives.act packs).act loops, parcel_plain, by decide, again,
    (Relation.ReflTransGen.single reads).tail empties, by decide +kernel⟩

end Overlay.Engine
