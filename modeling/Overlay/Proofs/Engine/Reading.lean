import Overlay.Proofs.Engine.Storing

/-!
# Reading typed data

Reading a field attaches a model to the record that stands in it and checks nothing.  Since the
data were checked when they were stored, the model wraps data of its type.

* `Engine.wrap_barred` : where no instance can be made, wrapping changes nothing;
* `Engine.freshModel_typed`, `Engine.represent_typed` : a model around stored data;
* `Engine.readProperty_typed` : what reading a property gives.
-/

namespace Overlay

namespace Engine

open Typing

section Reading

variable {s : Schema} {W : Typing} {c : Context} {st : State} {t : TypeId} {v : Value}
  {m : ModelId}

theorem create_refused (c : Context) (st : State) (depth : Nat)
    (h : (c.schema.type t).allowsInstances = false)
    (data : Option Value) :
    ∃ fault, Engine.perform depth (.create t data) c st = (.error fault, st) := by
  cases depth with
  | zero => exact ⟨_, rfl⟩
  | succ depth => exact ⟨_, construct_barred (Engine.perform depth) rfl h data⟩

/-- Where no instance can be made of data, wrapping finds the model attached to them at most. -/
theorem wrap_barred (hs : c.schema.Regular) (depth : Nat) (st : State) (hv : v.isModel = false)
    (barred : (c.schema.type t).allowsInstances = false ∨ v.isArray = true ∨
      ((c.schema.type t).isStructured = true ∧ v.isRecord = false)) :
    (Engine.perform depth (.wrap (.model t) v) c st).2.heap = st.heap ∧
      ∀ m, (Engine.perform depth (.wrap (.model t) v) c st).1 = .ok (.model m) →
        liveWrapper? c st.heap v = some m := by
  cases depth with
  | zero => exact ⟨rfl, fun _ e => by cases e⟩
  | succ depth =>
    show (wrapUnder (Engine.perform depth) t v c st).2.heap = _ ∧
      ∀ m, (wrapUnder (Engine.perform depth) t v c st).1 = _ → _
    rw [wrapUnder_run _ c st (hs.free t).wrap (hs.free t).coerce hv]
    have same : ∀ m, (.ok v : Except Fault Value) = .ok (.model m) →
        liveWrapper? c st.heap v = some m := fun m e => by cases e; cases hv
    split
    · exact ⟨rfl, same⟩
    · rcases wrapData_steps (Engine.perform depth) c st (hs.free t).wrap v with ⟨-, e⟩ |
        ⟨fault, e⟩ | e | ⟨m, hm, e⟩ | ⟨shape, ha, -, e⟩ <;> rw [e]
      · exact ⟨rfl, same⟩
      · exact ⟨rfl, fun _ e => by cases e⟩
      · refine ⟨invalid_heap v c st, fun m hm => ?_⟩
        cases invalid_ok (Prod.ext hm rfl)
      · exact ⟨rfl, fun _ e => by cases e; exact hm⟩
      · -- nothing but a type without instances is left
        have none : (c.schema.type t).allowsInstances = false := by
          rcases barred with h | h | ⟨h, hr⟩
          · exact h
          · cases ha.symm.trans h
          · cases hr.symm.trans (shape h)
        obtain ⟨fault, refused⟩ := create_refused c st depth none (some v)
        rw [bind_run, refused]
        exact ⟨rfl, fun _ e => by cases e⟩

theorem models_of_liveWrapper? {h : Heap} (d : W.Describes s h) (carries : W.Carries s t v)
    (hm : liveWrapper? c h v = some m) : W.Models s h m := by
  obtain ⟨r, rfl, hr⟩ := attached?_of_liveWrapper? hm
  have role := carries.2 r rfl
  obtain ⟨held, data, type⟩ := d.attached r t m role hr
  exact ⟨held, fun _ => ⟨r, data, type ▸ role⟩⟩

/-- A fresh model around stored data of its type, or around loose ones. -/
theorem freshModel_typed (hc : c.schema = s) (d : W.Describes s st.heap)
    (role : ∀ r t', v = .record r → W.record r = some (.data t') → t' = t) :
    Typed s [v] W st.heap (freshModel t v c st) fun w W' h' =>
      W.Carries s t v → ∀ m, w = .model m → W'.Models s h' m := by
  let m := (st.heap.addModel t v).1
  let h₁ := (st.heap.addModel t v).2
  have added : Advances s [v] W st.heap W h₁ := .of_extends d (st.heap.extends_addModel t v) _
  have held : h₁.Holds (.model m) := st.heap.index_addModel_lt t v
  have type : h₁.type m = t := st.heap.type_addModel t v
  have data : h₁.data m = v := st.heap.data_addModel t v
  have models : ∀ {h'}, h₁.Grows h' → W.Carries s t v → W.Models s h' m := by
    intro h' g carries
    have type' : h'.type m = t := (g.type_eq held).trans type
    refine ⟨held.grows g, fun hstr => ?_⟩
    rw [type'] at hstr
    have hr := carries.1 hstr
    cases v with
    | record r => exact ⟨r, (g.data_eq held).trans data, type' ▸ carries.2 r rfl⟩
    | _ => cases hr
  have alone : Typed s [v] W st.heap (.ok (Value.model m), { st with heap := h₁ })
      fun w W' h' => W.Carries s t v → ∀ m, w = .model m → W'.Models s h' m :=
    ⟨W, added, fun w e carries m' e' => by cases e; cases e'; exact models (.refl h₁) carries⟩
  subst hc
  cases v with
  | record r =>
    rw [freshModel_record]
    by_cases hstr : (c.schema.type t).isStructured = true
    · rw [if_pos hstr]
      have attach : Advances c.schema [.record r] W h₁ W (h₁.setWrapper r (some m)) := by
        refine ⟨h₁.changesOnly_setWrapper List.mem_cons_self _, .refl W, fun _ _ _ => rfl,
          fun _ _ _ => rfl, added.describes.attach fun t' hr => ⟨held, data, ?_⟩⟩
        rw [type, role r t' rfl hr]
      refine ⟨W, added.trans attach fun _ h => Or.inl h, fun w e carries m' e' => ?_⟩
      cases e
      cases e'
      exact models attach.changes.grows carries
    · rw [if_neg hstr]
      exact alone
  | _ => exact alone

/-- Reading stored data by their type gives a model around them. -/
theorem represent_typed (c : Context) (hs : s.Regular) (hc : c.schema = s) (depth : Nat)
    (d : W.Describes s st.heap) (hv : v.isModel = false) (hn : v.isNothing = false)
    (hw : (s.type t).wraps = true)
    (role : ∀ r t', v = .record r → W.record r = some (.data t') → t' = t) :
    Typed s [v] W st.heap (represent (Engine.perform depth) t v c st) fun w W' h' =>
      W.Carries s t v → ∀ m, w = .model m → W'.Models s h' m := by
  subst hc
  have standard : (c.schema.type t).wrap = .standard :=
    (hs.free t).wrap.resolve_right fun h => by rw [ModelType.wraps, h] at hw; cases hw
  have barred : ((c.schema.type t).allowsInstances = false ∨ v.isArray = true ∨
      ((c.schema.type t).isStructured = true ∧ v.isRecord = false)) →
      Typed c.schema [v] W st.heap (apart (Engine.perform depth (.wrap (.model t) v)) c st)
        fun w W' h' => W.Carries c.schema t v → ∀ m, w = .model m → W'.Models c.schema h' m := by
    intro h
    obtain ⟨heap, found⟩ := wrap_barred hs depth { st with options := .throwing } hv h
    refine .same d heap fun w hw carries m e => ?_
    subst e
    exact models_of_liveWrapper? d carries (found m hw)
  unfold represent
  rw [bind_run]
  dsimp only [schema]
  rw [standard, hv, hn]
  split
  · rename_i h
    refine barred ?_
    simp only [bne_self_eq_false, Bool.false_or, Bool.or_false, Bool.or_eq_true,
      Bool.not_eq_true'] at h
    exact h.imp_right Or.inl
  · cases v with
    | record r =>
      show Typed c.schema _ W st.heap ((holding [.record r] (wrapper? r) >>= _) c st) _
      rw [bind_run, holding_wrapper?]
      rcases hl : liveWrapper? c st.heap (.record r) with _ | m
      · exact freshModel_typed rfl d role
      · refine .same d rfl fun w hw carries m' e => ?_
        cases hw
        cases e
        exact models_of_liveWrapper? d carries hl
    | _ =>
      dsimp only
      split
      · exact barred (Or.inr (Or.inr ⟨‹_›, rfl⟩))
      · exact freshModel_typed rfl d role

theorem suits_fieldOf {h : Heap} {key : String} {p : Property} (d : W.Describes s h)
    (models : W.Models s h m) (hp : (s.type (h.type m)).property? key = some p) :
    W.Suits s p (fieldOf h m p) := by
  obtain ⟨r, data, role⟩ := models.2 (ModelType.isStructured_of_property? hp)
  rw [fieldOf_of_data data]
  exact d.fields r _ role key p hp

/-- Reading a property gives a model around data of its type, unless its storage key is
reserved. -/
theorem readProperty_typed (hs : s.Regular) (hc : c.schema = s) (depth : Nat) {key : String}
    {p : Property} (d : W.Describes s st.heap) (models : W.Models s st.heap m)
    (hp : (s.type (st.heap.type m)).property? key = some p) :
    Typed s [fieldOf st.heap m p] W st.heap (readProperty (Engine.perform depth) m p c st)
      fun w W' h' => isReserved p.storageKey = false → ∀ m', w = .model m' → W'.Models s h' m' := by
  subst hc
  have plain := hs.built.plainBelow_size hp
  have suits := suits_fieldOf d models hp
  have raw : ∀ w, w = fieldOf st.heap m p → ∀ m', w ≠ .model m' := by
    rintro w rfl m' e
    have := suits.not_model
    rw [e] at this
    cases this
  generalize hv : fieldOf st.heap m p = v at suits raw
  rcases ht : p.type with b | t | a
  · rw [readProperty_builtin _ c st m plain.getter ht, hv]
    exact .pure (c := c) d fun _ m' e => absurd e (raw v rfl m')
  · rw [readProperty_model _ c st m plain.getter ht, hv, ht]
    split
    · exact .pure (c := c) d fun _ m' e => absurd e (raw v rfl m')
    · rename_i h
      obtain ⟨hn, hw⟩ := not_or.1 (mt Bool.or_eq_true_iff.2 h)
      split
      · have unwrapped : st.heap.unwrap v = v := by
          cases v <;> first | rfl | exact absurd rfl (raw _ rfl _)
        exact .pure (c := c) d fun _ m' e => absurd e (raw _ unwrapped m')
      · have hw : (c.schema.type t).wraps = true := by simpa [Schema.wraps] using hw
        have carries : W.Fits c.schema p.type p.elements v → W.Carries c.schema t v := by
          intro fits
          rw [ht] at fits
          exact (fits.resolve_left hn).2 hw
        -- the record of the data is one for the type, or a loose one
        have role : ∀ r t', v = .record r → W.record r = some (.data t') → t' = t := by
          intro r t' e hr
          rcases suits with fits | ⟨-, -, loose⟩
          · cases ((carries fits).2 r e).symm.trans hr
            rfl
          · cases (loose r e).symm.trans hr
        have shown := represent_typed { c with held := [.model m] ++ c.held } hs rfl depth d
          suits.not_model (Bool.eq_false_iff.2 hn) hw role
        exact shown.imp fun w W' h' q hres => q (carries (suits.fits hres))
  · exact (plain.types _ (List.mem_cons.2 (Or.inl ht.symm))).elim

end Reading

end Engine

end Overlay
