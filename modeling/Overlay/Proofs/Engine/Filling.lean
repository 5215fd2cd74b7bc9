import Overlay.Proofs.Engine.Storing

/-!
# Filling new models

A new model is attached to its record, and the record gets its role, only once all entries have been
put through their properties.  Up to then, `Engine.Filling` says which properties hold what suits
them; if an entry is refused, the record is left without a role.

* `Engine.admitEntries_typed` : the entries go through their properties one after the other;
* `Engine.construct_typed` : a new model wraps typed data;
* `Engine.perform_stores` : at any depth, the operations turn plain trees into typed data.
-/

namespace Overlay

namespace Engine

open Typing

section Constructing

variable {s : Schema} {perform : Perform} {cells : List Value} {W : Typing} {c : Context}
  {st : State} {q : Property} {v : Value}

/-- A model is being filled: its record has no role yet, and every property has a value that suits
it, unless an entry under its storage key is pending.  Reserved entries stay as they came. -/
structure Filling (s : Schema) (t : TypeId) (r : RecordId) (m : ModelId)
    (pending : List (String × Value)) (W : Typing) (h : Heap) : Prop where
  /-- The typed cells hold what their types say. -/
  describes : W.Describes s h
  /-- The record is there. -/
  held : h.Holds (.record r)
  /-- It has no role. -/
  untyped : W.record r = none
  /-- The model is there. -/
  model : h.Holds (.model m)
  /-- It is an instance of the type. -/
  type : h.type m = t
  /-- It wraps the record. -/
  data : h.data m = .record r
  /-- The other properties have values that suit them. -/
  fields : ∀ key p, (s.type t).property? key = some p →
    (∃ v, (p.storageKey, v) ∈ pending ∧
      (isReserved p.storageKey = true → (h.fields r).get p.storageKey = v)) ∨
      W.Suits s p ((h.fields r).get p.storageKey)

namespace Filling

variable {t : TypeId} {r : RecordId} {m : ModelId} {key : String}
  {pending : List (String × Value)} {W' : Typing} {h h' : Heap}

theorem advance (f : Filling s t r m pending W h) (adv : Advances s cells W h W' h')
    (hr : .record r ∉ cells) : Filling s t r m pending W' h' := by
  have grows := adv.changes.grows
  refine ⟨adv.describes, f.held.grows grows, (adv.records r f.held hr).trans f.untyped,
    f.model.grows grows, (grows.type_eq f.model).trans f.type,
    (grows.data_eq f.model).trans f.data, fun key' p hp => ?_⟩
  rw [adv.changes.fields r f.held hr]
  exact (f.fields key' p hp).imp_right (Suits.mono adv.more)

theorem insert (f : Filling s t r m pending W h) {p : Property} {i : Nat} {w : Value}
    (hp : (s.type t).property? key = some p) (hk : (s.type t).WellKeyed)
    (hs : (s.type t).PlacedAt i) (hw : W.Fits s p.type p.elements w) :
    Advances s [.record r] W h W (h.insert r p.storageKey w) ∧
      Filling s t r m pending W (h.insert r p.storageKey w) ∧
      W.Suits s p (((h.insert r p.storageKey w).fields r).get p.storageKey) := by
  have adv : Advances s [.record r] W h W (h.insert r p.storageKey w) :=
    .of_changesOnly f.describes (untyped_record f.untyped)
      (h.changesOnly_insert List.mem_cons_self _ _)
  have read : ∀ k, ((h.insert r p.storageKey w).fields r).get k =
      if k = p.storageKey then w else (h.fields r).get k := by
    intro k
    rw [Heap.fields_insert, if_pos ⟨rfl, f.held⟩, Fields.get_insert]
  refine ⟨adv, ⟨adv.describes, f.held.grows adv.changes.grows, f.untyped, f.model, f.type, f.data,
    fun key' q hq => ?_⟩, ?_⟩
  · rw [read]
    by_cases e : q.storageKey = p.storageKey
    · -- the storage key belongs to one property only
      cases hk.eq_of_storageKey hs hq hp e
      rw [if_pos rfl]
      exact Or.inr (Or.inl hw)
    · rw [if_neg e]
      exact f.fields key' q hq
  · rw [read, if_pos rfl]
    exact Or.inl hw

theorem start (d : W.Describes s h) (t : TypeId) {inside : List Value}
    (y : W.Ready h [.record r] (.record r :: inside)) :
    Filling s t r (h.addModel t (.record r)).1 (h.fields r).entries W
      (h.addModel t (.record r)).2 := by
  have ext := h.extends_addModel t (.record r)
  refine ⟨(Advances.of_extends d ext []).describes, y.held _ List.mem_cons_self,
    y.untyped.record r List.mem_cons_self, h.index_addModel_lt t _, h.type_addModel t _,
    h.data_addModel t _, fun key p hp => ?_⟩
  rw [Heap.fields_addModel]
  -- a field without an entry is undefined
  rcases (h.fields r).get_cases p.storageKey with hk | hk
  · exact Or.inl ⟨_, hk, fun _ => rfl⟩
  · rw [hk]
    exact Or.inr (Or.inl (Or.inl rfl))

theorem finish (f : Filling s t r m [] W h) :
    ∃ W', Advances s [.record r] W h W' (h.setWrapper r (some m)) ∧
      W'.record r = some (.data t) ∧ W'.Models s (h.setWrapper r (some m)) m := by
  have changes : h.ChangesOnly (h.setWrapper r (some m)) [.record r] :=
    h.changesOnly_setWrapper List.mem_cons_self _
  have attach : Advances s [.record r] W h W (h.setWrapper r (some m)) :=
    .of_changesOnly f.describes (untyped_record f.untyped) changes
  have assign : Advances s [.record r] W (h.setWrapper r (some m)) (W.assign r (.data t))
      (h.setWrapper r (some m)) := by
    refine .assign attach.describes List.mem_cons_self (f.held.grows changes.grows) f.untyped
      (fun t' e key p hp => ?_) fun t' m' e hm => ?_
    · cases e
      rw [Heap.fields_setWrapper]
      exact (f.fields key p hp).resolve_left fun ⟨_, h, _⟩ => absurd h List.not_mem_nil
    · cases e
      rw [Heap.attached?_setWrapper, if_pos ⟨rfl, f.held⟩] at hm
      cases hm
      exact ⟨f.model, f.data, f.type⟩
  have role : (W.assign r (.data t)).record r = some (.data t) := if_pos rfl
  refine ⟨_, attach.trans assign fun _ h => Or.inl h, role, f.model, fun _ => ⟨r, f.data, ?_⟩⟩
  rw [role]
  exact congrArg (fun t => some (Role.data t)) f.type.symm

theorem next (f : Filling s t r m ((key, v) :: pending) W h)
    (done : ∀ key' p, (s.type t).property? key' = some p → p.storageKey = key →
      (isReserved key = true → (h.fields r).get key = v) →
        W.Suits s p ((h.fields r).get p.storageKey)) :
    Filling s t r m pending W h := by
  refine ⟨f.describes, f.held, f.untyped, f.model, f.type, f.data, fun key' p hp => ?_⟩
  rcases f.fields key' p hp with ⟨w, hw, hres⟩ | hv
  · rcases List.mem_cons.1 hw with e | hw
    · obtain ⟨rfl, rfl⟩ := Prod.mk.inj e
      exact Or.inr (done key' p hp rfl hres)
    · exact Or.inl ⟨w, hw, hres⟩
  · exact Or.inr hv

end Filling

/-- A reserved entry stays as it came; a record under it is kept apart. -/
theorem keepEntry_typed {t : TypeId} {r : RecordId} {m : ModelId} {key : String}
    {pending : List (String × Value)} (hkey : isReserved key = true)
    (f : Filling s t r m ((key, v) :: pending) W st.heap) (y : W.Ready st.heap [v] cells)
    (hr : .record r ∉ cells) :
    Typed s (.record r :: cells) W st.heap ((.ok (), st) : Except Fault Unit × State)
      fun _ => Filling s t r m pending := by
  cases hv : v.record? with
  | none =>
    refine .same f.describes rfl fun _ _ => f.next fun key' p hp' e hget => Or.inr ?_
    rw [e, hget hkey]
    refine ⟨hkey, y.trees.not_model, fun r' e' => ?_⟩
    rw [e'] at hv
    cases hv
  | some r' =>
    obtain rfl : v = .record r' := by
      cases v <;> cases hv
      rfl
    obtain ⟨inside, rfl, -, free, -⟩ := y.of_record
    have adv : Advances s (.record r' :: inside) W st.heap (W.assign r' .loose) st.heap :=
      .assign f.describes List.mem_cons_self (y.held _ List.mem_cons_self)
        (y.untyped.record r' List.mem_cons_self) nofun nofun
    refine ⟨_, adv.mono fun w hw => Or.inl (List.mem_cons_of_mem _ hw), fun _ _ => ?_⟩
    refine (f.advance adv hr).next fun key' p hp' e hget => Or.inr ?_
    rw [e, hget hkey]
    refine ⟨hkey, rfl, fun r'' e' => ?_⟩
    cases e'
    exact if_pos rfl

theorem admitEntry_typed (c : Context) (hp : Stores s perform) (hs : s.Regular)
    (hc : c.schema = s) {t : TypeId} {r : RecordId} {m : ModelId} {key : String}
    {pending : List (String × Value)}
    (f : Filling s t r m ((key, v) :: pending) W st.heap) (y : W.Ready st.heap [v] cells)
    (hr : .record r ∉ cells) :
    Typed s (.record r :: cells) W st.heap (admitEntry perform m (s.type t) key v c st)
      fun _ => Filling s t r m pending := by
  have mem : ∀ w ∈ cells, w ∈ .record r :: cells := fun w hw => List.mem_cons_of_mem _ hw
  have placed := (hs.built.soundAt t).toPlacedAt
  unfold admitEntry
  split
  · exact keepEntry_typed ‹_› f y hr
  · -- a property that is stored under the key is found by it
    have found : ∀ {key' q}, (s.type t).property? key' = some q → q.storageKey = key →
        (s.type t).property? key = some q := fun hq e =>
      e ▸ ModelType.WellKeyed.found_by_storageKey (hs.keyed t) placed hq
    rcases hp' : (s.type t).property? key with _ | p
    · have skip : Filling s t r m pending W st.heap := f.next fun key' q hq e _ =>
        nomatch (found hq e).symm.trans hp'
      dsimp only
      split
      · exact .pure f.describes skip
      · have signalled : Typed s (.record r :: cells) W st.heap
            (signal (.unrecognizedKey key) c st) fun _ => Filling s t r m pending :=
          .signal f.describes _ skip
        exact signalled.seq fun _ W' st' adv filling => .pure adv.describes filling
    · obtain ⟨W', h', adv, written⟩ := hp.set (m := m) hc (hs.built.plainBelow_size hp')
        f.describes y
      dsimp only
      rcases written with ⟨⟨fault, hf⟩, heap⟩ | ⟨w, hw, heap⟩
      · refine ⟨W', heap ▸ adv.mono fun w hw => Or.inl (mem w hw), fun u hu => ?_⟩
        rw [hf] at hu
        cases hu
      · -- what was written comes on top of what checking it did elsewhere
        have f' := f.advance adv hr
        have record := h'.record?_of_data f'.data
        obtain ⟨adv', f'', suits⟩ := f'.insert hp' (hs.keyed t) placed hw
        rw [record, Option.elim_some] at heap
        refine ⟨W', heap ▸ (adv.mono fun w hw => Or.inl (mem w hw)).trans adv' fun w hw =>
          Or.inl ?_, fun _ _ => heap ▸ f''.next fun key' q hq e _ => ?_⟩
        · exact List.mem_singleton.1 hw ▸ List.mem_cons_self
        · cases (found hq e).symm.trans hp'
          exact suits

/-- The invariant of construction: entries go through their properties one after the other. -/
theorem admitEntries_typed (hp : Stores s perform) (hs : s.Regular) (hc : c.schema = s)
    {t : TypeId} {r : RecordId} {m : ModelId} {entries : List (String × Value)}
    (f : Filling s t r m entries W st.heap) (y : W.Ready st.heap (entries.map Prod.snd) cells)
    (hr : .record r ∉ cells) :
    Typed s (.record r :: cells) W st.heap (admitEntries perform m (s.type t) entries c st)
      fun _ => Filling s t r m [] := by
  induction entries generalizing cells W st with
  | nil => exact .pure f.describes f
  | cons entry rest ih =>
    obtain ⟨key, v⟩ := entry
    obtain ⟨cells₁, cells₂, rfl, first, others, hd⟩ := y.split
    have hr₁ : .record r ∉ cells₁ := fun h => hr (List.mem_append_left _ h)
    have hr₂ : .record r ∉ cells₂ := fun h => hr (List.mem_append_right _ h)
    have entry : Typed s (.record r :: cells₁) W st.heap
        (holding (.model m :: rest.map Prod.snd) (admitEntry perform m (s.type t) key v) c st)
        fun _ => Filling s t r m rest :=
      admitEntry_typed { c with held := (.model m :: rest.map Prod.snd) ++ c.held } hp hs hc f
        first hr₁
    -- the record itself and the cells of the first entry are not those of the others
    have apart : ∀ v ∈ cells₂, v ∉ .record r :: cells₁ := fun v hv h =>
      (List.mem_cons.1 h).elim (fun e => hr₂ (e ▸ hv)) (hd v hv)
    refine entry.bind (fun v hv => ?_) fun _ W' st' adv f' => ?_
    · exact List.cons_subset_cons _ (List.subset_append_left _ _) hv
    · refine ⟨.record r :: cells₂, fun v hv => Or.inl ?_, ih f' (others.advance adv apart) hr₂⟩
      exact List.cons_subset_cons _ (List.subset_append_right _ _) hv

/-- The record of a new model: that of the tree handed in, or a fresh one. -/
def Chosen (cells : List Value) (before : Heap) (data : Option Value) (r : RecordId) (W : Typing)
    (h : Heap) : Prop :=
  ∃ inside, (∀ v ∈ .record r :: inside, v ∈ cells ∨ ¬ before.Holds v) ∧
    W.Ready h [.record r] (.record r :: inside) ∧ ∀ r', data = some (.record r') → r' = r

theorem recordFor_typed {data : Option Value} (d : W.Describes s st.heap)
    (y : W.Ready st.heap data.toList cells) :
    Typed s cells W st.heap (recordFor data c st) (Chosen cells st.heap data) := by
  have fresh : ∀ {W' st'}, Advances s [] W st.heap W' st'.heap →
      (∀ r', data ≠ some (.record r')) →
      Typed s cells W' st'.heap (allocate (·.addRecord .empty) c st')
        (Chosen cells st.heap data) := by
    intro W' st' adv hdata
    refine ⟨W', .of_extends adv.describes (st'.heap.extends_addRecord .empty) cells,
      fun r hr => ?_⟩
    cases hr
    refine ⟨[], fun v hv => Or.inr fun h => ?_, .addRecord adv.describes, fun r' e =>
      absurd e (hdata r')⟩
    cases List.mem_singleton.1 hv
    exact Nat.lt_irrefl _ (h.grows adv.changes.grows)
  cases data with
  | none => exact fresh (.refl d []) nofun
  | some v =>
    have rejected : (∀ r, some v ≠ some (.record r)) →
        Typed s cells W st.heap ((invalid v >>= fun _ => allocate (·.addRecord .empty)) c st)
          (Chosen cells st.heap (some v)) := by
      intro hv
      have undefined : Typed s [] W st.heap (invalid v c st) fun _ _ _ => True :=
        .invalid d v trivial
      exact undefined.bind (fun _ h => absurd h List.not_mem_nil) fun _ _ _ adv _ =>
        ⟨cells, fun _ h => Or.inl h, fresh adv hv⟩
    cases v with
    | record r =>
      obtain ⟨inside, rfl, -⟩ := Ready.of_record y
      exact .pure d ⟨inside, fun _ h => Or.inl h, y, fun _ e => by cases e; rfl⟩
    | undefined => exact fresh (.refl d []) nofun
    | null => exact fresh (.refl d []) nofun
    | _ => exact rejected nofun

/-- A model around the record of a tree is added, filled and then attached. -/
theorem fillModel_typed (hp : Stores s perform) (hs : s.Regular) (hc : c.schema = s) {t : TypeId}
    {r : RecordId} {inside : List Value} {data : Option Value} (d : W.Describes s st.heap)
    (y : W.Ready st.heap [.record r] (.record r :: inside))
    (hr : ∀ r', data = some (.record r') → r' = r) :
    Typed s (.record r :: inside) W st.heap (fillModel perform t (s.type t) r c st)
      (Constructed s t data) := by
  obtain ⟨inside', e, hn, -, trees⟩ := y.of_record
  cases e
  let m := (st.heap.addModel t (.record r)).1
  let st₁ : State := { st with heap := (st.heap.addModel t (.record r)).2 }
  have added : ∀ cells, Advances s cells W st.heap W st₁.heap := fun cells =>
    .of_extends d (st.heap.extends_addModel t (.record r)) cells
  have filled : Typed s (.record r :: inside) W st₁.heap
      (admitEntries perform m (s.type t) (st₁.heap.fields r).entries c st₁)
      fun _ => Filling s t r m [] :=
    admitEntries_typed hp hs hc (.start d t y)
      (trees.advance (added []) fun _ _ => List.not_mem_nil) hn
  rw [fillModel_run perform hc (Schema.initRules_of_free hs.free _)]
  refine .after (added (.record r :: inside)) (filled.bind (fun _ h => h)
    fun _ W₂ st₂ _ f => ?_) fun _ h => Or.inl h
  obtain ⟨W₃, attached, role, models⟩ := f.finish
  refine ⟨[.record r], fun v hv => Or.inl ?_, ?_⟩
  · exact List.mem_singleton.1 hv ▸ List.mem_cons_self
  · refine ⟨W₃, attached, fun _ e => ?_⟩
    cases e
    exact ⟨models, fun r' e => hr r' e ▸ role⟩

theorem holdData_typed (hs : s.Regular) (hc : c.schema = s) {t : TypeId}
    (hstr : ¬ (s.type t).isStructured = true) {data : Option Value} (d : W.Describes s st.heap)
    (y : W.Ready st.heap data.toList cells) :
    Typed s cells W st.heap (holdData perform t (data.getD .undefined) c st)
      (Constructed s t data) := by
  let m := (st.heap.addModel t (data.getD .undefined)).1
  let st₁ : State := { st with heap := (st.heap.addModel t (data.getD .undefined)).2 }
  have added : Advances s cells W st.heap W st₁.heap :=
    .of_extends d (st.heap.extends_addModel t _) cells
  have models : ∀ W : Typing, W.Models s st₁.heap m := fun W =>
    ⟨st.heap.index_addModel_lt t _, fun h => absurd (st.heap.type_addModel t _ ▸ h) hstr⟩
  rw [holdData_run perform hc (Schema.initRules_of_free hs.free _)]
  by_cases hdata : ∃ r, data = some (.record r)
  · obtain ⟨r, rfl⟩ := hdata
    obtain ⟨inside, rfl, -, free, -⟩ := Ready.of_record y
    -- without properties, any fields will do
    have assigned : Advances s (.record r :: inside) W st₁.heap (W.assign r (.data t))
        st₁.heap := by
      refine .assign added.describes List.mem_cons_self (y.held _ List.mem_cons_self)
        (y.untyped.record r List.mem_cons_self) (fun t' e key p hp => ?_) fun t' m' _ hm => ?_
      · cases e
        exact absurd (ModelType.isStructured_of_property? hp) hstr
      · cases free.symm.trans hm
    refine ⟨_, added.trans assigned fun _ h => Or.inl h, fun _ e => ?_⟩
    cases e
    refine ⟨models _, fun r' e => ?_⟩
    cases e
    exact if_pos rfl
  · refine ⟨W, added, fun _ e => ?_⟩
    cases e
    exact ⟨models W, fun r e => absurd ⟨r, e⟩ hdata⟩

theorem construct_typed (hp : Stores s perform) (hs : s.Regular) (hc : c.schema = s) {t : TypeId}
    {data : Option Value} (d : W.Describes s st.heap) (y : W.Ready st.heap data.toList cells) :
    Typed s cells W st.heap (construct perform t data c st) (Constructed s t data) := by
  cases allowed : (s.type t).allowsInstances with
  | false =>
    rw [construct_barred perform hc allowed]
    exact .raise (c := c) d _
  | true =>
    cases hstr : (s.type t).isStructured with
    | true =>
      rw [construct_structured perform hc allowed hstr]
      refine (recordFor_typed d y).bind (fun _ h => h) fun r W₁ st₁ adv ⟨inside, sub, y', hr⟩ => ?_
      exact ⟨_, sub, fillModel_typed hp hs hc adv.describes y' hr⟩
    | false =>
      rw [construct_bare perform hc allowed hstr]
      exact holdData_typed hs hc (Bool.eq_false_iff.1 hstr) d y

end Constructing

/-- At any depth, the operations turn plain trees into typed data. -/
theorem perform_stores {s : Schema} (hs : s.Regular) (depth : Nat) :
    Stores s (Engine.perform depth) := by
  induction depth with
  | zero =>
    -- nothing happens without any depth left
    have nothing : ∀ {α : Type} {cells W c st} {op : Operation α} {Q}, W.Describes s st.heap →
        Typed s cells W st.heap (Engine.perform 0 op c st) Q := fun d =>
      .same d rfl fun _ h => by cases h
    exact ⟨fun _ _ _ d _ => nothing d, fun _ d _ => nothing d, fun _ d _ => nothing d,
      fun _ _ d _ => ⟨_, _, .refl d _, Or.inl ⟨⟨_, rfl⟩, rfl⟩⟩⟩
  | succ depth ih =>
    exact ⟨fun hc hq hprop d y => coerceBy_typed ih hs hc hq hprop d y,
      fun hc d y => wrapUnder_typed ih hs hc d y, fun hc d y => construct_typed ih hs hc d y,
      fun hc hq d y => writeProperty_writes ih hc hq d y _⟩

end Engine

end Overlay
