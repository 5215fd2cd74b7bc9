import Overlay.Proofs.Engine.Typed
import Overlay.Proofs.Engine.Wrapping

/-!
# Storing plain trees

Under a regular schema, coercing, wrapping, writing and constructing turn plain trees into typed
data.  `Engine.Stores` says so of the operations that an operation has done, and the lemmas here
derive it for the operation itself.

* `Engine.writeProperty_writes` : a value is checked before the field changes;
* `Engine.wrapUnder_typed`, `Engine.coerceBy_typed` : wrapping and coercing.
-/

namespace Overlay

namespace Engine

open Typing

/-! ### Given operations that are typed -/

/-- What coercing by the type of a property gives: a value of the type or, where wrapping is still
to come, the same trees. -/
def Coerced (s : Schema) (q : Property) (cells : List Value) (v : Value) (W : Typing) (h : Heap) :
    Prop :=
  if q.type.isBuiltin then W.Fits s q.type q.elements v else W.Ready h [v] cells

/-- What wrapping by a type gives: unless it is undefined, the value that was wrapped is of the
type, and a model is one around data of its type. -/
def Wrapped (s : Schema) (t : TypeId) (v w : Value) (W : Typing) (h : Heap) : Prop :=
  (w.isUndefined = false → ∀ ts, W.Fits s (.model t) ts v) ∧
    ∀ m, w = .model m → W.Models s h m

/-- What constructing gives: a model whose record, if it was handed in, holds data of the type. -/
def Constructed (s : Schema) (t : TypeId) (data : Option Value) (m : ModelId) (W : Typing)
    (h : Heap) : Prop :=
  W.Models s h m ∧ ∀ r, data = some (.record r) → W.record r = some (.data t)

/-- What writing a property does: first to the trees alone, and then, if all went well, to the
field, which gets a value of the type. -/
def Writes (s : Schema) (cells : List Value) (W : Typing) (h : Heap) (m : ModelId) (q : Property)
    (run : Except Fault Unit × State) : Prop :=
  ∃ W' h', Advances s cells W h W' h' ∧
    (((∃ fault, run.1 = .error fault) ∧ run.2.heap = h') ∨
      ∃ w, W'.Fits s q.type q.elements w ∧
        run.2.heap = (h'.record? m).elim h' fun r => h'.insert r q.storageKey w)

/-- The operations turn plain trees into typed data. -/
structure Stores (s : Schema) (perform : Perform) : Prop where
  /-- Coercing by the type of the property at hand. -/
  coerce : ∀ {c st cells W q v}, c.schema = s → q.PlainBelow s.models.size →
    st.options.property = some q → W.Describes s st.heap → W.Ready st.heap [v] cells →
      Typed s cells W st.heap (perform (.coerce q.type v) c st) (Coerced s q cells)
  /-- Wrapping by a model type. -/
  wrap : ∀ {c st cells W t v}, c.schema = s → W.Describes s st.heap → W.Ready st.heap [v] cells →
    Typed s cells W st.heap (perform (.wrap (.model t) v) c st) (Wrapped s t v)
  /-- Constructing. -/
  create : ∀ {c st cells W t data}, c.schema = s → W.Describes s st.heap →
    W.Ready st.heap data.toList cells →
      Typed s cells W st.heap (perform (.create t data) c st) (Constructed s t data)
  /-- Writing a property. -/
  set : ∀ {c st cells W m q v}, c.schema = s → q.PlainBelow s.models.size →
    W.Describes s st.heap → W.Ready st.heap [v] cells →
      Writes s cells W st.heap m q (perform (.set m q v) c st)

section Bodies

variable {s : Schema} {perform : Perform} {cells : List Value} {W : Typing} {c : Context}
  {st : State} {q : Property} {v : Value}

/-! ### Writing -/

theorem adapt_typed (c : Context) (st : State) (hp : Stores s perform) (hc : c.schema = s)
    (hq : q.PlainBelow s.models.size) (hprop : st.options.property = some q)
    (d : W.Describes s st.heap) (y : W.Ready st.heap [v] cells) :
    Typed s cells W st.heap (adapt perform q v c st) (Coerced s q cells) := by
  have hv := y.trees.not_model
  unfold adapt
  split
  · cases hv
  · exact hp.coerce hc hq hprop d y

theorem settle_typed (c : Context) (st : State) (hp : Stores s perform) (hc : c.schema = s)
    (hq : q.PlainBelow s.models.size) (d : W.Describes s st.heap)
    (y : Coerced s q cells v W st.heap) :
    Typed s cells W st.heap (settle perform q v c st)
      fun w W _ => W.Fits s q.type q.elements w := by
  unfold settle
  rw [bind_run]
  dsimp only [schema]
  rw [hc]
  unfold Coerced at y
  rcases ht : q.type with b | t | a
  · rw [ht] at y
    rw [if_pos (by simp [Schema.wraps])]
    exact .pure d y
  · rw [ht] at y
    replace y : W.Ready st.heap [v] cells := y
    have hv := y.trees.not_model
    split
    · rename_i h
      refine .pure d ?_
      -- nothing to wrap, or nothing that wraps
      rcases Bool.or_eq_true_iff.1 h with h | h
      · exact Or.inl h
      · refine Or.inr ⟨hv, fun hw => ?_⟩
        rw [Bool.not_eq_true'] at h
        cases h.symm.trans hw
    · have wrapped : Typed s cells W st.heap
          (holding [v] (perform (.wrap (.model t) v)) c st) (Wrapped s t v) := hp.wrap hc d y
      refine wrapped.seq fun w W' st' adv hw => ?_
      split
      · exact .pure adv.describes (Or.inl rfl)
      · rename_i hu
        have unwrapped : st'.heap.unwrap v = v := by
          cases v <;> first | rfl | cases hv
        refine .same adv.describes rfl fun u hu' => ?_
        cases hu'
        rw [unwrapped]
        exact hw.1 (Bool.eq_false_iff.2 hu) _
  · exact (hq.types _ (List.mem_cons.2 (Or.inl ht.symm))).elim

theorem stored_typed (hp : Stores s perform) (hc : c.schema = s) (hq : q.PlainBelow s.models.size)
    (d : W.Describes s st.heap) (y : W.Ready st.heap [v] cells) :
    Typed s cells W st.heap (stored perform q v c st)
      fun w W _ => W.Fits s q.type q.elements w := by
  have adapted := adapt_typed c { st with options := { st.options with property := some q } }
    hp hc hq rfl d y
  exact .concerning <| adapted.seq fun _ _ _ adv y' => settle_typed c _ hp hc hq adv.describes y'

theorem prepared_typed (c : Context) (st : State) (hp : Stores s perform) (hc : c.schema = s)
    (hq : q.PlainBelow s.models.size) (d : W.Describes s st.heap) (y : W.Ready st.heap [v] cells) :
    Typed s cells W st.heap (prepared perform q v c st)
      fun w W _ => W.Fits s q.type q.elements w := by
  have adapted : Typed s cells W st.heap (concerning q (adapt perform q v) c st)
      (Coerced s q cells) :=
    .concerning (adapt_typed c { st with options := { st.options with property := some q } }
      hp hc hq rfl d y)
  exact adapted.seq fun w W' st' adv y' =>
    .concerning (settle_typed c { st' with options := { st'.options with property := some q } }
      hp hc hq adv.describes y')

/-- Writing a property checks the value before the field changes. -/
theorem writeProperty_writes (hp : Stores s perform) (hc : c.schema = s)
    (hq : q.PlainBelow s.models.size) (d : W.Describes s st.heap) (y : W.Ready st.heap [v] cells)
    (m : ModelId) : Writes s cells W st.heap m q (writeProperty perform m q v c st) := by
  have typed := prepared_typed { c with held := [.model m] ++ c.held } st hp hc hq d y
  rw [writeProperty_run perform hq.setter]
  obtain ⟨W', adv, fits⟩ := typed
  generalize prepared perform q v { c with held := [.model m] ++ c.held } st = mid at adv fits
  obtain ⟨fault | w, st'⟩ := mid
  · exact ⟨W', _, adv, Or.inl ⟨⟨fault, rfl⟩, rfl⟩⟩
  · exact ⟨W', _, adv, Or.inr ⟨w, fits w rfl, rfl⟩⟩

/-! ### Wrapping -/

/-- Wrapping turns trees into a model around typed data. -/
theorem wrapUnder_typed (hp : Stores s perform) (hs : s.Regular) (hc : c.schema = s) {t : TypeId}
    (d : W.Describes s st.heap) (y : W.Ready st.heap [v] cells) :
    Typed s cells W st.heap (wrapUnder perform t v c st) (Wrapped s t v) := by
  subst hc
  have hv := y.trees.not_model
  have not_model : ∀ {m}, v ≠ .model m := fun e => by rw [e] at hv; cases hv
  rw [wrapUnder_run perform c st (hs.free t).wrap (hs.free t).coerce hv]
  split
  · rename_i h
    refine .same d rfl fun w hw => ?_
    cases hw
    exact ⟨fun _ _ => Or.inl h, fun m e => absurd e not_model⟩
  · rcases wrapData_steps perform c st (hs.free t).wrap v with ⟨hw, e⟩ | ⟨fault, e⟩ | e |
      ⟨m, hm, e⟩ | ⟨shape, -, -, e⟩ <;> rw [e]
    · -- values of the type are stored as they are
      refine .same d rfl fun w hw' => ?_
      cases hw'
      refine ⟨fun _ _ => Or.inr ⟨hv, fun h => ?_⟩, fun m e => absurd e not_model⟩
      cases hw.symm.trans h
    · refine .same d rfl fun _ hw => ?_
      cases hw
    · exact .invalid d v ⟨nofun, nofun⟩
    · -- no model is attached to the record of a tree
      obtain ⟨r, rfl, hr⟩ := attached?_of_liveWrapper? hm
      obtain ⟨inside, -, -, free, -⟩ := y.of_record
      cases free.symm.trans hr
    · have made : Typed c.schema cells W st.heap (perform (.create t (some v)) c st)
          (Constructed c.schema t (some v)) := hp.create rfl d y
      refine made.seq fun m W' st' adv ⟨models, role⟩ =>
        .pure adv.describes ⟨fun _ _ => Or.inr ⟨hv, fun _ => ?_⟩, ?_⟩
      · exact ⟨shape, fun r e => role r (by rw [e])⟩
      · intro m' e
        cases e
        exact models

/-- Coercing by the type of the property at hand. -/
theorem coerceBy_typed (hp : Stores s perform) (hs : s.Regular) (hc : c.schema = s)
    (hq : q.PlainBelow s.models.size) (hprop : st.options.property = some q)
    (d : W.Describes s st.heap) (y : W.Ready st.heap [v] cells) :
    Typed s cells W st.heap (coerceBy perform q.type v c st) (Coerced s q cells) := by
  subst hc
  unfold Coerced
  rcases ht : q.type with b | t | a
  · have coerced := coerceBuiltin_typed (c := c) hprop ht (fun he hc' d' y' =>
      stored_typed hp hc' (hq.element he).1 d' y') d y
    rw [ht] at coerced
    exact coerced
  · change Typed c.schema cells W st.heap (coerceUnder perform t v c st) _
    rw [coerceUnder_run perform c st (hs.free t).coerce]
    refine .same d rfl fun w hw => ?_
    cases hw
    exact y
  · exact (hq.types _ (List.mem_cons.2 (Or.inl ht.symm))).elim

end Bodies

end Engine

end Overlay
