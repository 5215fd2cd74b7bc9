import Overlay.Proofs.Engine.Sound
import Overlay.Proofs.Engine.Wrapping
import Overlay.Proofs.Heap.Attached
import Overlay.Proofs.Schema.Free

/-!
# Where values come to

Without hooks, a value that is handed to an operation comes to the slots that the types declare: an
element to the slot of elements, the value under a key to the slot of the property that the key
names.  What is stored in the end is the value itself, nothing, another scalar in place of a scalar,
or what a model is around.  An `Engine.Routing` follows values on these ways, with whatever it keeps
track of in the heap; the values may be shared and may contain themselves.

* `Heap.Yields` : what can be stored in place of a value;
* `Engine.Routing.perform_served` : **what a routing keeps, every operation on such types keeps**,
  however it ends.
-/

namespace Overlay

/-! ### What is stored in place of a value -/

namespace Heap

variable {h h' : Heap} {v w x : Value}

/-- What can be stored in place of a value. -/
inductive Yields (h : Heap) : Value → Value → Prop
  /-- The value itself. -/
  | same (v : Value) : Yields h v v
  /-- Nothing. -/
  | void (v : Value) : Yields h v .undefined
  /-- Another scalar. -/
  | scalar {v w : Value} (some : v.isNothing = false) (hv : v.isScalar = true)
      (hw : w.isScalar = true) : Yields h v w
  /-- What can be stored in place of what a model is around. -/
  | data {m : ModelId} {w : Value} (inside : Yields h (h.data m) w) : Yields h (.model m) w

theorem holds_of_isScalar (h : Heap) (hv : v.isScalar = true) : h.Holds v := by
  cases v <;> first | cases hv; done | trivial

namespace Yields

theorem holds (yields : h.Yields v w) (closed : h.Closed) (hv : h.Holds v) : h.Holds w := by
  induction yields with
  | same => exact hv
  | void => trivial
  | scalar _ _ hw => exact h.holds_of_isScalar hw
  | data _ ih => exact ih (closed.sealed.data hv)

theorem trans (first : h.Yields v w) (second : h.Yields w x) : h.Yields v x := by
  induction first with
  | same => exact second
  | void =>
    cases second with
    | scalar some => cases some
    | _ => exact .void _
  | scalar some hv hw =>
    cases second with
    | same => exact .scalar some hv hw
    | void => exact .void _
    | scalar _ _ hx => exact .scalar some hv hx
    | data => cases hw
  | data _ ih => exact .data (ih second)

theorem of_grows (yields : h'.Yields v w) (grows : h.Grows h') (closed : h.Closed)
    (hv : h.Holds v) : h.Yields v w := by
  induction yields with
  | same => exact .same _
  | void => exact .void _
  | scalar some plain hw => exact .scalar some plain hw
  | data _ ih =>
    rw [grows.data_eq hv] at ih
    exact .data (ih (closed.sealed.data hv))

theorem of_container (yields : h.Yields v w) (hv : v.isRecord = true ∨ v.isArray = true) :
    w = v ∨ w = .undefined := by
  cases yields with
  | same => exact Or.inl rfl
  | void => exact Or.inr rfl
  | scalar _ plain =>
    cases v <;> first | cases plain; done | (rcases hv with hv | hv <;> cases hv)
  | data => rcases hv with hv | hv <;> cases hv

theorem of_isNothing (yields : h.Yields v w) (hv : v.isNothing = true) : w.isNothing = true := by
  cases yields with
  | same => exact hv
  | void => rfl
  | scalar some => cases some.symm.trans hv
  | data => cases hv

end Yields

end Heap

namespace Engine

open Heap

/-! ### Routings -/

/-- Where a value comes to. -/
inductive Spot
  /-- What is declared for it. -/
  | slot (q : Slot)
  /-- A key of a record. -/
  | field (r : RecordId) (key : String)
  /-- The type whose properties its entries go through. -/
  | inside (t : TypeId)

/-- The ways of values through slots, and something about the heap that is kept on them.  A run
starts with certain values in use. -/
structure Routing (s : Schema) where
  /-- The values in use. -/
  held : List Value
  /-- What is kept. -/
  Keeps : Heap → Prop
  /-- The value comes there. -/
  At : Heap → Spot → Value → Prop
  /-- What comes anywhere is there. -/
  there : ∀ {h spot v}, Keeps h → At h spot v → h.Holds v
  /-- It still comes there when the heap has grown. -/
  grows : ∀ {h h' spot v}, h.Grows h' → At h spot v → At h' spot v
  /-- A scalar may come in place of what comes there. -/
  scalar : ∀ {h spot v w}, At h spot v → w.isScalar = true → At h spot w
  /-- What a model is around comes where the model does. -/
  data : ∀ {h spot m}, h.Closed → Keeps h → At h spot (.model m) → At h spot (h.data m)
  /-- The elements of an array come to their slot. -/
  element : ∀ {h q e a} (i : Nat), h.Closed → Keeps h → At h (.slot q) (.array a) →
    q.items? = some e → At h (.slot e) (h.item a i)
  /-- A record goes through the properties of its type, unless it has a model in use. -/
  enter : ∀ {h q r t}, Keeps h → At h (.slot q) (.record r) → q.form? s = some t →
    (∀ w, h.attached? r = some w → .model w ∉ held) → At h (.inside t) (.record r)
  /-- Its entries then come to the slots of their properties, and under the storage keys. -/
  entry : ∀ {h r t key p x}, h.Closed → Keeps h → At h (.inside t) (.record r) →
    isReserved key = false → (s.type t).property? key = some p → (key, x) ∈ (h.fields r).entries →
      At h (.slot p.slot) x ∧ At h (.field r p.storageKey) x
  /-- What comes to a field may be stored there. -/
  insert : ∀ {h r key v}, Keeps h → At h (.field r key) v → Keeps (h.insert r key v)
  /-- What an element yields may replace it. -/
  setItem : ∀ {h h' q e a i w}, h.Closed → Keeps h → Keeps h' → h.Grows h' →
    At h (.slot q) (.array a) → q.items? = some e → h.Yields (h.item a i) w →
      Keeps (h'.setItem a i w)
  /-- The record of a model that is no instance of the type lets go of it. -/
  release : ∀ {h q m t r}, Keeps h → At h (.slot q) (.model m) → q.type = .model t →
    (s.type t).wraps = true → s.derivesFrom (h.type m) t = false → h.data m = .record r →
      Keeps (h.setWrapper r none)
  /-- A model is attached to its record, which went through the properties of its type. -/
  attach : ∀ {h r t m}, Keeps h → At h (.inside t) (.record r) → h.Holds (.model m) →
    h.data m = .record r → (s.type (h.type m)).isStructured = true → Keeps (h.setWrapper r (some m))
  /-- A model of what comes somewhere is added; one of a type with properties wraps a record. -/
  addModel : ∀ {h spot v} (t : TypeId), Keeps h → At h spot v →
    ((s.type t).isStructured = true → v.isRecord = true) → Keeps (h.addModel t v).2

namespace Routing

variable {s : Schema} {R : Routing s} {h h' h'' : Heap} {roots : List Value} {α β : Type}
  {c : Context} {st : State} {v w : Value} {q e : Slot} {spot : Spot}

/-- The heap is in order, and so much is in use. -/
structure Sound (R : Routing s) (roots : List Value) (h : Heap) : Prop where
  /-- There are no dangling references. -/
  closed : h.Closed
  /-- What is to be kept holds. -/
  keeps : R.Keeps h
  /-- What was in use at first still is. -/
  held : ∀ v ∈ R.held, v ∈ roots
  /-- What is in use is there, if anything was in use at first. -/
  there : ∀ u ∈ R.held, ∀ v ∈ roots, h.Holds v

/-- What was kept was kept from one heap to the other. -/
structure Kept (R : Routing s) (h h' : Heap) : Prop where
  /-- No cell is gone. -/
  grows : h.Grows h'
  /-- There are no dangling references. -/
  closed : h'.Closed
  /-- What is to be kept holds. -/
  keeps : R.Keeps h'

theorem Sound.refl (sound : R.Sound roots h) : R.Kept h h := ⟨.refl h, sound.closed, sound.keeps⟩

theorem Kept.trans (k : R.Kept h h') (k' : R.Kept h' h'') : R.Kept h h'' :=
  ⟨k.grows.trans k'.grows, k'.closed, k'.keeps⟩

theorem Sound.kept (sound : R.Sound roots h) (k : R.Kept h h') : R.Sound roots h' :=
  ⟨k.closed, k.keeps, sound.held, fun u hu v hv => (sound.there u hu v hv).grows k.grows⟩

theorem Sound.holding (sound : R.Sound roots h) {vs : List Value} (hvs : ∀ v ∈ vs, h.Holds v) :
    R.Sound (vs ++ roots) h :=
  ⟨sound.closed, sound.keeps, fun v hv => List.mem_append_right _ (sound.held v hv),
    fun u hu v hv => (List.mem_append.1 hv).elim (hvs v) (sound.there u hu v)⟩

theorem Sound.holding_one (sound : R.Sound roots h) (hv : h.Holds v) : R.Sound (v :: roots) h :=
  ⟨sound.closed, sound.keeps, fun w hw => List.mem_cons_of_mem _ (sound.held w hw),
    fun u hu => List.forall_mem_cons.2 ⟨hv, sound.there u hu⟩⟩

/-- What a value yields comes where the value does. -/
theorem Sound.at_of_yields (sound : R.Sound roots h) (yields : h.Yields v w)
    (comes : R.At h spot v) : R.At h spot w := by
  induction yields with
  | same => exact comes
  | void => exact R.scalar comes rfl
  | scalar _ _ hw => exact R.scalar comes hw
  | data _ ih => exact ih (R.data sound.closed sound.keeps comes)

theorem Sound.not_held_of_liveWrapper? {r : RecordId} (hc : c.schema = s)
    (sound : R.Sound (c.held ++ s.heldValues) h) (hr : h.Holds (.record r))
    (none : liveWrapper? c h (.record r) = none) :
    ∀ m, h.attached? r = some m → .model m ∉ R.held := by
  intro m attached held
  have sound := sound.holding_one hr
  have found := wrapper?_of_mem sound.closed (sound.there _ held) attached (sound.held _ held)
  rw [liveWrapper?, hc] at none
  cases none.symm.trans found

/-- The run keeps what the routing keeps, and its result is one of these. -/
structure Follows (R : Routing s) (h : Heap) (run : Except Fault α × State) (Post : α → Prop) :
    Prop where
  /-- It keeps everything. -/
  kept : R.Kept h run.2.heap
  /-- Its result is one of these. -/
  post : ∀ a, run.1 = .ok a → Post a

namespace Follows

variable {Post : α → Prop} {Post' : β → Prop} {act : Engine α} {next : α → Engine β}

theorem ok {a : α} (sound : R.Sound roots st.heap) (ha : Post a) :
    R.Follows st.heap (.ok a, st) Post :=
  ⟨sound.refl, fun _ e => by cases e; exact ha⟩

theorem same {run : Except Fault α × State} (sound : R.Sound roots h) (heap : run.2.heap = h)
    (post : ∀ a, run.1 = .ok a → Post a) : R.Follows h run Post :=
  ⟨by rw [heap]; exact sound.refl, post⟩

theorem error {fault : Fault} (sound : R.Sound roots st.heap) :
    R.Follows st.heap ((.error fault, st) : Except Fault α × State) Post :=
  ⟨sound.refl, fun _ e => by cases e⟩

theorem mono {run : Except Fault α × State} {Post' : α → Prop} (f : R.Follows h run Post)
    (imp : ∀ a, Post a → Post' a) : R.Follows h run Post' :=
  ⟨f.kept, fun a e => imp a (f.post a e)⟩

theorem bind (first : R.Follows st.heap (act c st) Post)
    (rest : ∀ a st₁, act c st = (.ok a, st₁) → R.Kept st.heap st₁.heap → Post a →
      R.Follows st₁.heap (next a c st₁) Post') :
    R.Follows st.heap ((act >>= next) c st) Post' := by
  rw [bind_run]
  rcases he : act c st with ⟨fault | a, st₁⟩
  · rw [he] at first
    exact ⟨first.kept, fun _ e => by cases e⟩
  · rw [he] at first
    have last := rest a st₁ he first.kept (first.post a rfl)
    exact ⟨first.kept.trans last.kept, last.post⟩

theorem bind_pure {f : α → β} (first : R.Follows st.heap (act c st) Post)
    (post : ∀ a, Post a → Post' (f a)) :
    R.Follows st.heap ((act >>= fun a => pure (f a)) c st) Post' :=
  first.bind fun a _ _ kept ha =>
    ⟨⟨.refl _, kept.closed, kept.keeps⟩, fun _ e => by cases e; exact post a ha⟩

theorem concerning (p : Property)
    (f : R.Follows st.heap
      (act c { st with options := { st.options with property := some p } }) Post) :
    R.Follows st.heap (concerning p act c st) Post := by
  unfold Engine.concerning
  dsimp only
  rcases he : act c { st with options := { st.options with property := some p } } with ⟨result, st₁⟩
  rw [he] at f
  exact ⟨f.kept, f.post⟩

end Follows

theorem signal_heap (e : Error) (c : Context) (st : State) : (signal e c st).2.heap = st.heap := by
  unfold signal
  split <;> rfl

theorem invalid_follows (sound : R.Sound roots st.heap) (v w : Value) :
    R.Follows st.heap (invalid w c st) (st.heap.Yields v) :=
  .same sound (invalid_heap w c st) fun u e => by
    rw [invalid_ok (Prod.ext e rfl)]
    exact .void v

/-! ### Operations, given others -/

/-- The operations keep what the routing keeps. -/
structure Served (R : Routing s) (perform : Perform) : Prop where
  /-- Coercing. -/
  coerce : ∀ {c st q v}, c.schema = s → R.Sound (c.held ++ s.heldValues) st.heap →
    q.AtHand st.options.property → s.FreeSlot q → R.At st.heap (.slot q) v →
      R.Follows st.heap (perform (.coerce q.type v) c st) (st.heap.Yields v)
  /-- Wrapping. -/
  wrap : ∀ {c st q t v}, c.schema = s → R.Sound (c.held ++ s.heldValues) st.heap →
    q.type = .model t → s.Free (.model t) → (s.type t).wraps = true → R.At st.heap (.slot q) v →
      R.Follows st.heap (perform (.wrap (.model t) v) c st) fun _ => True
  /-- Constructing. -/
  create : ∀ {c st t spot v}, c.schema = s → R.Sound (c.held ++ s.heldValues) st.heap →
    s.Free (.model t) → R.At st.heap spot v →
      ((s.type t).isStructured = true → ∃ r, v = .record r ∧ R.At st.heap (.inside t) v) →
        R.Follows st.heap (perform (.create t (some v)) c st) fun _ => True
  /-- Writing. -/
  set : ∀ {c st m p r v}, c.schema = s → R.Sound (c.held ++ s.heldValues) st.heap →
    p.setter = none → s.FreeSlot p.slot → st.heap.Holds (.model m) → st.heap.data m = .record r →
      R.At st.heap (.slot p.slot) v → R.At st.heap (.field r p.storageKey) v →
        R.Follows st.heap (perform (.set m p v) c st) fun _ => True

section Bodies

variable {perform : Perform} {p : Property} {t : TypeId} {m : ModelId} {r : RecordId}
  (hp : R.Served perform) (hc : c.schema = s)

/-! #### Storing -/

include hp hc

theorem adapt_follows (sound : R.Sound (c.held ++ s.heldValues) st.heap)
    (hand : st.options.property = some p) (free : s.FreeSlot p.slot)
    (comes : R.At st.heap (.slot p.slot) v) :
    R.Follows st.heap (adapt perform p v c st) (st.heap.Yields v) := by
  have coerced : R.Follows st.heap (perform (.coerce p.type v) c st) (st.heap.Yields v) :=
    hp.coerce (q := p.slot) hc sound (by rw [hand]; exact p.slot_atHand) free comes
  unfold adapt
  split
  · rename_i m
    rw [bind_run]
    dsimp only [heap]
    rw [bind_run]
    dsimp only [schema]
    split
    · exact .ok sound (.data (.same _))
    · exact coerced
  · exact coerced

theorem settle_follows (sound : R.Sound (c.held ++ s.heldValues) st.heap)
    (free : s.FreeSlot p.slot) (comes : R.At st.heap (.slot p.slot) v) :
    R.Follows st.heap (settle perform p v c st) (st.heap.Yields v) := by
  unfold settle
  rw [bind_run]
  dsimp only [schema]
  rw [hc]
  split
  · exact .ok sound (.same v)
  · rename_i h
    simp only [Bool.or_eq_true, Bool.not_eq_true', not_or, Bool.not_eq_false] at h
    obtain ⟨t, ht⟩ : ∃ t, p.type = .model t := by
      have free := free p.type List.mem_cons_self
      have wraps := h.2
      cases hu : p.type <;> rw [hu] at free wraps
      · cases wraps
      · exact ⟨_, rfl⟩
      · cases free
    have wraps := h.2
    rw [ht] at wraps ⊢
    have there := R.there sound.keeps comes
    have wrapped : R.Follows st.heap (holding [v] (perform (.wrap (.model t) v)) c st) fun _ => True :=
      hp.wrap (c := { c with held := [v] ++ c.held }) hc
        (sound.holding_one there) ht
        (free _ (List.mem_cons.2 (Or.inl ht.symm))) wraps comes
    refine wrapped.bind fun w st₁ _ kept _ => ?_
    have sound₁ := sound.kept kept
    split
    · exact .ok sound₁ (.void v)
    · refine .ok sound₁ ?_
      cases v with
      | model m =>
        rw [Heap.unwrap, kept.grows.data_eq there]
        exact .data (.same _)
      | _ => exact .same _

/-- Settling on what a value yields gives something else that the value yields. -/
theorem settle_adapted (sound : R.Sound (c.held ++ s.heldValues) h) (free : s.FreeSlot p.slot)
    (comes : R.At h (.slot p.slot) v) (kept : R.Kept h st.heap) (yields : h.Yields v w) :
    R.Follows st.heap (settle perform p w c st) (h.Yields v) := by
  have comes' := R.grows kept.grows (sound.at_of_yields yields comes)
  refine (settle_follows hp hc (sound.kept kept) free comes').mono fun u second => ?_
  have there := yields.holds sound.closed (R.there sound.keeps comes)
  exact yields.trans (second.of_grows kept.grows sound.closed there)

/-- What a value comes to in a slot is something that it yields. -/
theorem prepared_follows (sound : R.Sound (c.held ++ s.heldValues) st.heap)
    (free : s.FreeSlot p.slot) (comes : R.At st.heap (.slot p.slot) v) :
    R.Follows st.heap (prepared perform p v c st) (st.heap.Yields v) := by
  let st₀ : State := { st with options := { st.options with property := some p } }
  have sound₀ : R.Sound (c.held ++ s.heldValues) st₀.heap := sound
  have adapted : R.Follows st.heap (concerning p (adapt perform p v) c st) (st.heap.Yields v) :=
    .concerning p (adapt_follows hp hc sound₀ rfl free comes)
  refine adapted.bind fun w st₁ _ kept yields => ?_
  let st₂ : State := { st₁ with options := { st₁.options with property := some p } }
  have kept₂ : R.Kept st.heap st₂.heap := kept
  exact .concerning p (settle_adapted hp hc sound free comes kept₂ yields)

theorem stored_follows (sound : R.Sound (c.held ++ s.heldValues) st.heap)
    (free : s.FreeSlot p.slot) (comes : R.At st.heap (.slot p.slot) v) :
    R.Follows st.heap (stored perform p v c st) (st.heap.Yields v) := by
  let st₀ : State := { st with options := { st.options with property := some p } }
  have sound₀ : R.Sound (c.held ++ s.heldValues) st₀.heap := sound
  have adapted := adapt_follows hp hc sound₀ rfl free comes
  exact .concerning p (adapted.bind fun w st₁ _ kept yields =>
    settle_adapted hp hc sound free comes kept yields)

theorem writeProperty_follows (sound : R.Sound (c.held ++ s.heldValues) st.heap)
    (setter : p.setter = none) (free : s.FreeSlot p.slot) (hm : st.heap.Holds (.model m))
    (data : st.heap.data m = .record r) (comes : R.At st.heap (.slot p.slot) v)
    (field : R.At st.heap (.field r p.storageKey) v) :
    R.Follows st.heap (writeProperty perform m p v c st) fun _ => True := by
  have sound' : R.Sound (([.model m] ++ c.held) ++ s.heldValues) st.heap :=
    sound.holding_one hm
  have ready := prepared_follows (c := { c with held := [.model m] ++ c.held }) hp hc sound' free comes
  rw [writeProperty_run perform setter]
  rcases he : prepared perform p v { c with held := [.model m] ++ c.held } st with ⟨fault | w, st₁⟩
  · rw [he] at ready
    exact ⟨ready.kept, fun _ e => by cases e⟩
  · rw [he] at ready
    have sound₁ := sound.kept ready.kept
    have record := st₁.heap.record?_of_data ((ready.kept.grows.data_eq hm).trans data)
    have comes₁ := R.grows ready.kept.grows (sound.at_of_yields (ready.post w rfl) field)
    have step : Step s True st₁.heap (st₁.heap.insert r p.storageKey w) :=
      .insert r _ fun _ => R.there sound₁.keeps comes₁
    dsimp only [wrote]
    rw [record]
    exact ⟨ready.kept.trans ⟨step.grows, step.closed trivial sound₁.closed,
      R.insert sound₁.keeps comes₁⟩, fun _ _ => trivial⟩

/-! #### Coercion -/

omit hp hc in
theorem coerceScalar_follows (b : Builtin) (sound : R.Sound roots st.heap) :
    R.Follows st.heap (coerceScalar b v c st) (st.heap.Yields v) := by
  unfold coerceScalar
  split
  · exact .ok sound (.same v)
  · rename_i h
    rw [bind_run]
    dsimp only [options]
    split
    · exact invalid_follows sound v v
    · rcases hw : b.converted? v with _ | w
      · exact invalid_follows sound v v
      · have plain : v.isScalar = true ∧ w.isScalar = true := by
          cases b <;> simp only [Builtin.converted?, Option.map_eq_some_iff] at hw
          case object => cases hw
          case array => cases hw
          all_goals
            obtain ⟨x, hx, rfl⟩ := hw
            exact ⟨by (cases v <;> first | rfl | cases hx), rfl⟩
        exact .ok sound (.scalar (by simp_all [Value.isNothing]) plain.1 plain.2)

omit hp hc in
theorem coerceInteger_follows (sound : R.Sound roots st.heap) :
    R.Follows st.heap (coerceInteger v c st) (st.heap.Yields v) := by
  refine (coerceScalar_follows .number sound).bind fun w st₁ _ kept yields => ?_
  have sound₁ := sound.kept kept
  split
  · split
    · exact .ok sound₁ yields
    · exact .same sound₁ (invalid_heap v c st₁) fun u e => by
        rw [invalid_ok (Prod.ext e rfl)]
        exact .void v
  · exact .ok sound₁ yields

/-- Every element is replaced by something that it yields. -/
theorem replaceItems_follows {a : ArrayId} (sound : R.Sound (c.held ++ s.heldValues) st.heap)
    (free : s.FreeSlot p.slot) (he : q.items? = some p.slot)
    (comes : R.At st.heap (.slot q) (.array a)) (i count : Nat) :
    R.Follows st.heap (replaceItems (stored perform p) a i count c st) fun _ => True := by
  induction count generalizing i st with
  | zero => exact .ok sound trivial
  | succ count ih =>
    let v := st.heap.item a i
    have item : R.At st.heap (.slot p.slot) v := R.element i sound.closed sound.keeps comes he
    unfold replaceItems
    rw [bind_run]
    dsimp only [heap]
    refine (stored_follows hp hc sound free item).bind fun w st₁ _ kept yields => ?_
    have hw : st₁.heap.Holds w :=
      (yields.holds sound.closed (R.there sound.keeps item)).grows kept.grows
    have step : Step s True st₁.heap (st₁.heap.setItem a i w) := .setItem a i fun _ => hw
    have replaced : R.Kept st₁.heap (st₁.heap.setItem a i w) :=
      ⟨step.grows, step.closed trivial kept.closed,
        R.setItem sound.closed sound.keeps kept.keeps kept.grows comes he yields⟩
    rw [bind_run]
    dsimp only [changeHeap]
    let st₂ : State := { st₁ with heap := st₁.heap.setItem a i w }
    have sound₂ : R.Sound (c.held ++ s.heldValues) st₂.heap := (sound.kept kept).kept replaced
    have last := ih sound₂ (R.grows (kept.trans replaced).grows comes) (i + 1)
    exact ⟨replaced.trans last.kept, last.post⟩

theorem coerceArray_follows (sound : R.Sound (c.held ++ s.heldValues) st.heap)
    (hand : q.AtHand st.options.property) (type : q.type = .builtin .array)
    (free : s.FreeSlot q) (comes : R.At st.heap (.slot q) v) :
    R.Follows st.heap (coerceArray (stored perform) v c st) (st.heap.Yields v) := by
  unfold coerceArray
  split
  · exact .ok sound (.same _)
  · exact .ok sound (.same _)
  · rename_i a
    rw [bind_run]
    dsimp only [options]
    have element := hand.element
    rcases hp' : st.options.property.bind (·.elementProperty?) with _ | p
    · exact .ok sound (.same _)
    · rw [hp'] at element
      have he : q.items? = some p.slot := by
        unfold Slot.items?
        rw [type]
        exact element
      dsimp only
      rw [bind_run]
      dsimp only [heap]
      have there := R.there sound.keeps comes
      have replaced := replaceItems_follows (c := { c with held := [.array a] ++ c.held }) hp hc
        (sound.holding_one there)
        (free.element he) he comes 0 (st.heap.items a).length
      have walked : R.Follows st.heap (holding [.array a]
          (replaceItems (stored perform p) a 0 (st.heap.items a).length) c st) fun _ => True :=
        replaced
      exact walked.bind_pure fun _ _ => .same _
  · exact invalid_follows sound _ _

theorem coerceBuiltin_follows {b : Builtin} (sound : R.Sound (c.held ++ s.heldValues) st.heap)
    (hand : q.AtHand st.options.property) (type : q.type = .builtin b)
    (free : s.FreeSlot q) (comes : R.At st.heap (.slot q) v) :
    R.Follows st.heap (coerceBuiltin (stored perform) b v c st) (st.heap.Yields v) := by
  cases b with
  | integer => exact coerceInteger_follows sound
  | object => exact .ok sound (.same v)
  | array => exact coerceArray_follows hp hc sound hand type free comes
  | string => exact coerceScalar_follows _ sound
  | number => exact coerceScalar_follows _ sound
  | boolean => exact coerceScalar_follows _ sound
  | date => exact coerceScalar_follows _ sound

/-! #### Constructing and wrapping -/

/-- What the entries need to go through the properties of a type and into a record. -/
def Entering (R : Routing s) (h : Heap) (t : TypeId) (r : RecordId)
    (es : List (String × Value)) : Prop :=
  ∀ key x, (key, x) ∈ es → h.Holds x ∧ ∀ p, isReserved key = false →
    (s.type t).property? key = some p →
      R.At h (.slot p.slot) x ∧ R.At h (.field r p.storageKey) x

omit hp hc in
theorem entering_record {roots : List Value} {h : Heap} (sound : R.Sound roots h)
    (comes : R.At h (.inside t) (.record r)) :
    R.Entering h t r (h.fields r).entries := fun _ x hx =>
  ⟨sound.closed (.record r) (R.there sound.keeps comes) x (List.mem_map.2 ⟨_, hx, rfl⟩),
    fun _ unreserved found => R.entry sound.closed sound.keeps comes unreserved found hx⟩

omit hp hc in
theorem addModel_kept {roots : List Value} {h : Heap} (sound : R.Sound roots h)
    (comes : R.At h spot v) (shape : (s.type t).isStructured = true → v.isRecord = true) :
    R.Kept h (h.addModel t v).2 := by
  have step : Step s True h (h.addModel t v).2 :=
    .addModel t (fun _ => R.there sound.keeps comes) shape
  exact ⟨step.grows, step.closed trivial sound.closed, R.addModel t sound.keeps comes shape⟩

omit hp hc in
/-- A model may be attached to its record when this went through the properties of its type. -/
theorem attach_kept {roots : List Value} {h : Heap} (sound : R.Sound roots h)
    (comes : R.At h (.inside t) (.record r)) (hm : h.Holds (.model m)) (data : h.data m = .record r)
    (type : h.type m = t) (structured : (s.type t).isStructured = true) :
    R.Kept h (h.setWrapper r (some m)) := by
  subst type
  have step : Step s True h (h.setWrapper r (some m)) := .attach hm data structured
  exact ⟨step.grows, step.closed trivial sound.closed, R.attach sound.keeps comes hm data structured⟩

theorem admitEntries_follows (ht : s.Free (.model t)) {es : List (String × Value)}
    (sound : R.Sound (c.held ++ s.heldValues) st.heap) (hm : st.heap.Holds (.model m))
    (data : st.heap.data m = .record r) (entering : R.Entering st.heap t r es) :
    R.Follows st.heap (admitEntries perform m (s.type t) es c st) fun _ => True := by
  induction es generalizing st with
  | nil => exact .ok sound trivial
  | cons e es ih =>
    obtain ⟨key, x⟩ := e
    obtain ⟨hx, comes⟩ := entering key x List.mem_cons_self
    let c' : Context := { c with held := (.model m :: es.map Prod.snd) ++ c.held }
    have sound' : R.Sound (c'.held ++ s.heldValues) st.heap := by
      show R.Sound (((.model m :: es.map Prod.snd) ++ c.held) ++ s.heldValues) st.heap
      rw [List.append_assoc]
      refine sound.holding fun w hw => ?_
      rcases List.mem_cons.1 hw with rfl | hw
      · exact hm
      · obtain ⟨⟨k, y⟩, hy, rfl⟩ := List.mem_map.1 hw
        exact (entering k y (List.mem_cons_of_mem _ hy)).1
    have entry : R.Follows st.heap (admitEntry perform m (s.type t) key x c' st) fun _ => True := by
      unfold admitEntry
      split
      · exact .ok sound' trivial
      · rename_i unreserved
        rcases hk : (s.type t).property? key with _ | p
        · dsimp only
          split
          · exact .ok sound' trivial
          · exact .same sound' (by rw [bind_pure_heap, signal_heap]) fun _ _ => trivial
        · obtain ⟨slot, field⟩ := comes p (Bool.eq_false_iff.2 unreserved) hk
          cases ht with
          | model rules init getters setters types =>
            exact hp.set (c := c') hc sound' (setters key p hk) (fun u hu => types key p u hk hu) hm
              data slot field
    have held : R.Follows st.heap (holding (.model m :: es.map Prod.snd)
      (admitEntry perform m (s.type t) key x) c st) fun _ => True := entry
    refine held.bind fun _ st₁ _ kept _ => ?_
    refine ih (sound.kept kept) (hm.grows kept.grows) ((kept.grows.data_eq hm).trans data) ?_
    intro k y hy
    obtain ⟨there, comes⟩ := entering k y (List.mem_cons_of_mem _ hy)
    refine ⟨there.grows kept.grows, fun p hk hp' => ?_⟩
    exact (comes p hk hp').imp (R.grows kept.grows) (R.grows kept.grows)

theorem construct_follows (ht : s.Free (.model t))
    (sound : R.Sound (c.held ++ s.heldValues) st.heap) (somewhere : R.At st.heap spot v)
    (shape : (s.type t).isStructured = true → ∃ r, v = .record r ∧ R.At st.heap (.inside t) v) :
    R.Follows st.heap (construct perform t (some v) c st) fun _ => True := by
  have nothing : s.initRules t = [] := by
    cases ht
    assumption
  cases allowed : (s.type t).allowsInstances with
  | false =>
    rw [construct_barred perform hc allowed]
    exact .error sound
  | true =>
    cases structured : (s.type t).isStructured with
    | true =>
      obtain ⟨r, rfl, comes⟩ := shape structured
      rw [construct_structured perform hc allowed structured]
      let m := (st.heap.addModel t (.record r)).1
      let st₁ : State := { st with heap := (st.heap.addModel t (.record r)).2 }
      have added : R.Kept st.heap st₁.heap := addModel_kept sound comes fun _ => rfl
      have sound₁ := sound.kept added
      have comes₁ := R.grows added.grows comes
      have hm : st₁.heap.Holds (.model m) := st.heap.index_addModel_lt t _
      have data : st₁.heap.data m = .record r := st.heap.data_addModel t _
      have admitted := admitEntries_follows hp hc ht sound₁ hm data (entering_record sound₁ comes₁)
      have run : R.Follows st₁.heap (fillModel perform t (s.type t) r c st) fun _ => True := by
        rw [fillModel_run perform hc nothing]
        refine admitted.bind fun _ st₂ _ kept _ => ?_
        have type : st₂.heap.type m = t := (kept.grows.type_eq hm).trans (st.heap.type_addModel t _)
        exact ⟨attach_kept (sound₁.kept kept) (R.grows kept.grows comes₁) (hm.grows kept.grows)
          ((kept.grows.data_eq hm).trans data) type structured, fun _ _ => trivial⟩
      exact ⟨added.trans run.kept, run.post⟩
    | false =>
      rw [construct_bare perform hc allowed structured, holdData_run perform hc nothing]
      exact ⟨addModel_kept sound somewhere fun yes => absurd yes (Bool.eq_false_iff.1 structured),
        fun _ _ => trivial⟩

/-- Data are wrapped by the model in use, or by a new one once they went through the properties. -/
theorem wrapData_follows (sound : R.Sound (c.held ++ s.heldValues) st.heap)
    (type : q.type = .model t) (ht : s.Free (.model t)) (wraps : (s.type t).wraps = true)
    (comes : R.At st.heap (.slot q) v) :
    R.Follows st.heap (wrapData perform t v c st) fun _ => True := by
  have hv := R.there sound.keeps comes
  rcases wrapData_steps perform c st (by rw [hc]; exact ht.ruleFree.wrap) v with ⟨hw, -⟩ |
    ⟨fault, e⟩ | e | ⟨m, -, e⟩ | ⟨shape, -, live, e⟩
  · rw [hc] at hw
    cases hw.symm.trans wraps
  · rw [e]
    exact .error sound
  · rw [e]
    exact (invalid_follows sound v v).mono fun _ _ => trivial
  · rw [e]
    exact .ok sound trivial
  · rw [e]
    refine Follows.bind_pure (hp.create hc sound ht comes fun structured => ?_) fun _ _ => trivial
    obtain ⟨r, rfl⟩ := Value.exists_of_isRecord (shape (by rw [hc]; exact structured))
    have form : q.form? s = some t := by
      unfold Slot.form?
      rw [type]
      exact if_pos (by rw [wraps, structured]; rfl)
    exact ⟨r, rfl, R.enter sound.keeps comes form (sound.not_held_of_liveWrapper? hc hv live)⟩

/-- A model that is no instance of the type is taken apart first. -/
theorem wrapUnder_follows (sound : R.Sound (c.held ++ s.heldValues) st.heap)
    (type : q.type = .model t) (ht : s.Free (.model t)) (wraps : (s.type t).wraps = true)
    (comes : R.At st.heap (.slot q) v) :
    R.Follows st.heap (wrapUnder perform t v c st) fun _ => True := by
  have rules := ht.ruleFree
  rw [← hc] at rules
  cases hv : v.isModel with
  | false =>
    rw [wrapUnder_run perform c st rules.wrap rules.coerce hv]
    split
    · exact .ok sound trivial
    · exact wrapData_follows hp hc sound type ht wraps comes
  | true =>
    obtain ⟨m, rfl⟩ : ∃ m, v = .model m := by
      cases v <;> first | exact ⟨_, rfl⟩ | cases hv
    cases hd : c.schema.derivesFrom (st.heap.type m) t with
    | true =>
      rw [wrapUnder_instance rules.wrap hd]
      exact .ok sound trivial
    | false =>
      rw [wrapUnder_model_run perform rules.wrap rules.coerce hd]
      have data : R.At st.heap (.slot q) (st.heap.data m) := R.data sound.closed sound.keeps comes
      have released : R.Follows st.heap (Engine.release m c st) (· = st.heap.data m) := by
        rw [release_eq]
        rcases hr : st.heap.record? m with _ | r
        · exact .ok sound rfl
        · have data := st.heap.data_of_record? hr
          have step : Step s True st.heap (st.heap.setWrapper r none) := .detach r
          exact ⟨⟨st.heap.grows_setWrapper r none, step.closed trivial sound.closed,
            R.release sound.keeps comes type wraps (hc ▸ hd) data⟩, fun _ e => by cases e; rfl⟩
      refine released.bind fun w st₁ _ kept hw => ?_
      subst hw
      exact wrapData_follows hp hc (sound.kept kept) type ht wraps (R.grows kept.grows data)

end Bodies

/-- **What a routing keeps, every operation keeps** on types without hooks, at any depth and however
it ends. -/
theorem perform_served (R : Routing s) (depth : Nat) : R.Served (Engine.perform depth) := by
  induction depth with
  | zero =>
    exact ⟨fun _ sound _ _ _ => .error sound, fun _ sound _ _ _ _ => .error sound,
      fun _ sound _ _ _ => .error sound, fun _ sound _ _ _ _ _ _ => .error sound⟩
  | succ depth ih =>
    refine ⟨fun {c st q v} hc sound hand free comes => ?_, fun hc sound type ht wraps comes => ?_,
      fun hc sound ht comes shape => ?_, fun hc sound setter free hm data comes field => ?_⟩
    · have type := free q.type List.mem_cons_self
      show R.Follows st.heap (coerceBy (Engine.perform depth) q.type v c st) _
      rcases hq : q.type with b | t | a
      · exact coerceBuiltin_follows ih hc sound hand hq free comes
      · rw [hq] at type
        have rules := type.ruleFree
        rw [← hc] at rules
        show R.Follows st.heap (coerceUnder (Engine.perform depth) t v c st) _
        rw [coerceUnder_run _ c st rules.coerce]
        exact .ok sound (.same v)
      · rw [hq] at type
        cases type
    · exact wrapUnder_follows ih hc sound type ht wraps comes
    · exact construct_follows ih hc ht sound comes shape
    · exact writeProperty_follows ih hc sound setter free hm data comes field

end Routing

end Engine

end Overlay
