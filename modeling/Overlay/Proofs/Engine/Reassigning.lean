import Overlay.Proofs.Engine.Readable

/-!
# Assigning instances

A property whose type wraps plainly takes an instance of the type apart and stores the record.  On
the way the bare record is wrapped again.  That finds the model that is attached to the record, if
something else still holds it; otherwise a model of the type is made of the record once more, with
all the checks that this involves.

* `Engine.prepared_instance` : the two ways in which an instance is taken;
* `Engine.get_attached` : a model that was read is attached to the record that the field holds;
* `Engine.set_instance` : **assigning an instance stores its record as it is**, while a model of the
  record is in use; in particular, storing again what was read changes nothing.

An instance that nothing else holds may be refused for what its record contained before
(`Engine.set_instance_checked`).
-/

namespace Overlay

/-- A property without accessors of its own whose type has properties and wraps plainly. -/
structure Schema.Embeds (s : Schema) (p : Property) (t : TypeId) : Prop where
  /-- It is read from the record. -/
  getter : p.getter = none
  /-- It is written to the record. -/
  setter : p.setter = none
  /-- It is declared with this type. -/
  type : p.type = .model t
  /-- Models are attached to records, and values are taken as they are. -/
  plain : s.WrapsPlainly t
  /-- The type has properties. -/
  structured : (s.type t).isStructured = true

namespace Engine

variable {s : Schema} {c : Context} {st st' : State} {t : TypeId} {m i : ModelId}
  {p : Property} {r own : RecordId} {name : String} {v : Value}

/-! ### Taking an instance -/

theorem adapt_instance (perform : Perform) (embeds : c.schema.Embeds p t)
    (data : st.heap.data i = .record r) (inst : c.schema.derivesFrom (st.heap.type i) t = true) :
    adapt perform p (.model i) c st = (.ok (.record r), st) := by
  unfold adapt
  simp only [bind_run, heap, schema]
  rw [embeds.type, Schema.fits_model, if_pos inst, pure_run, data]

theorem wrap_record_run (depth : Nat) (plain : c.schema.WrapsPlainly t) :
    Engine.perform (depth + 1) (.wrap (.model t) (.record r)) c st =
      match liveWrapper? c st.heap (.record r) with
      | some found => (.ok (.model found), st)
      | none =>
        (Engine.perform depth (.create t (some (.record r))) >>= fun m => pure (.model m)) c st := by
  show wrapUnder (Engine.perform depth) t (.record r) c st = _
  rw [wrapUnder_run _ c st (Or.inl plain.wrap) plain.coerce rfl, if_neg (by exact Bool.false_ne_true)]
  exact wrapData_run _ c st plain.wrap rfl fun _ => rfl

theorem settle_record_run (depth : Nat) (embeds : c.schema.Embeds p t) :
    settle (Engine.perform (depth + 1)) p (.record r) c st =
      match liveWrapper? { c with held := .record r :: c.held } st.heap (.record r) with
      | some _ => (.ok (.record r), st)
      | none =>
        (Engine.perform depth (.create t (some (.record r))) >>= fun _ => pure (.record r))
          { c with held := .record r :: c.held } st := by
  have wraps : c.schema.wraps p.type = true := by
    rw [embeds.type, Schema.wraps, ModelType.wraps, embeds.plain.wrap]
    rfl
  have wrapped : holding [.record r] (Engine.perform (depth + 1) (.wrap p.type (.record r))) c st =
      match liveWrapper? { c with held := .record r :: c.held } st.heap (.record r) with
      | some found => (.ok (.model found), st)
      | none => (Engine.perform depth (.create t (some (.record r))) >>= fun m => pure (.model m))
          { c with held := .record r :: c.held } st := by
    rw [embeds.type]
    exact wrap_record_run (c := { c with held := .record r :: c.held }) depth embeds.plain
  unfold settle
  rw [bind_run]
  dsimp only [schema]
  rw [wraps, if_neg (by exact Bool.false_ne_true), bind_run, wrapped]
  rcases liveWrapper? { c with held := .record r :: c.held } st.heap (.record r) with _ | found
  · dsimp only
    rw [bind_run, bind_run]
    rcases Engine.perform depth (.create t (some (.record r)))
      { c with held := .record r :: c.held } st with ⟨_ | m, st'⟩ <;> rfl
  · rfl

/-- What comes to a record is stored as that.  If no model of the record is in use, one is made. -/
theorem prepared_record (depth : Nat) (embeds : c.schema.Embeds p t)
    (adapted : concerning p (adapt (Engine.perform (depth + 1)) p v) c st = (.ok (.record r), st)) :
    prepared (Engine.perform (depth + 1)) p v c st =
      match liveWrapper? { c with held := .record r :: c.held } st.heap (.record r) with
      | some _ => (.ok (.record r), st)
      | none =>
        (concerning p (Engine.perform depth (.create t (some (.record r)))) >>=
          fun _ => pure (.record r)) { c with held := .record r :: c.held } st := by
  have settled := @settle_record_run c { st with options := { st.options with property := some p } } t
    p r depth embeds
  rw [← concerning_bind_pure]
  unfold prepared
  rw [bind_run, adapted]
  dsimp only
  unfold concerning
  rw [settled]
  dsimp only
  rcases liveWrapper? { c with held := .record r :: c.held } st.heap (.record r) with _ | found <;> rfl

/-- An instance comes to its record. -/
theorem prepared_instance (depth : Nat) (embeds : c.schema.Embeds p t)
    (data : st.heap.data i = .record r) (inst : c.schema.derivesFrom (st.heap.type i) t = true) :
    prepared (Engine.perform (depth + 1)) p (.model i) c st =
      match liveWrapper? { c with held := .record r :: c.held } st.heap (.record r) with
      | some _ => (.ok (.record r), st)
      | none =>
        (concerning p (Engine.perform depth (.create t (some (.record r)))) >>=
          fun _ => pure (.record r)) { c with held := .record r :: c.held } st := by
  refine prepared_record depth embeds ?_
  unfold concerning
  dsimp only
  rw [adapt_instance _ embeds (by exact data) (by exact inst)]

/-! ### Reading a model -/

theorem represent_other (perform : Perform) (c : Context) (st : State)
    (structured : (c.schema.type t).isStructured = true) (hv : v.isRecord = false) :
    represent perform t v c st = apart (perform (.wrap (.model t) v)) c st := by
  unfold represent
  rw [bind_run]
  dsimp only [schema]
  rw [structured]
  split
  · rfl
  · cases v <;> first | rfl | cases hv

theorem represent_record_of_ok {depth : Nat} (plain : c.schema.WrapsPlainly t)
    (structured : (c.schema.type t).isStructured = true) (hn : v.isNothing = false)
    (hm : v.isModel = false)
    (h : represent (Engine.perform depth) t v c st = (.ok (.model i), st')) :
    ∃ r, v = .record r := by
  by_cases hv : v.isRecord = true
  · exact Value.exists_of_isRecord hv
  · exfalso
    replace hv := Bool.eq_false_iff.2 hv
    rw [represent_other _ c st structured hv] at h
    obtain ⟨o, h, -⟩ := apart_ok h
    cases depth with
    | zero => cases h
    | succ depth =>
      change wrapUnder (Engine.perform depth) t v c _ = _ at h
      rw [wrapUnder_run _ c _ (Or.inl plain.wrap) plain.coerce hm, if_neg (by simp [hn])] at h
      cases ha : v.isArray with
      | true =>
        rw [wrapData_array _ c _ plain.wrap ha] at h
        cases h
      | false =>
        rw [wrapData_invalid _ c _ plain.wrap ha (by rw [structured, hv]; rfl)] at h
        cases invalid_ok h

theorem represent_attached {depth : Nat} (plain : c.schema.WrapsPlainly t)
    (structured : (c.schema.type t).isStructured = true) (record : st.heap.Holds (.record r))
    (run : represent (Engine.perform depth) t (.record r) c st = (.ok (.model i), st')) :
    st.heap.Grows st'.heap ∧ (∀ r', st'.heap.fields r' = st.heap.fields r') ∧
      st'.heap.attached? r = some i := by
  have live : ∀ {found : ModelId}, liveWrapper? c st.heap (.record r) = some found →
      st.heap.attached? r = some found := fun live => by
    obtain ⟨r', e, attached⟩ := attached?_of_liveWrapper? live
    cases e
    exact attached
  rw [represent_run _ c st plain.wrap rfl rfl rfl fun _ => rfl] at run
  split at run
  · split at run
    · rename_i found here
      cases run
      exact ⟨.refl _, fun _ => rfl, live here⟩
    · rw [freshModel_record, if_pos structured] at run
      cases run
      have grows := (st.heap.extends_addModel t (.record r)).grows
      refine ⟨grows.trans (Heap.grows_setWrapper _ _ _), fun r' => by simp, ?_⟩
      rw [Heap.attached?_setWrapper, if_pos ⟨rfl, record.grows grows⟩]
  · rename_i barred
    obtain ⟨o, run, -⟩ := apart_ok run
    obtain ⟨d, rfl⟩ : ∃ d, depth = d + 1 := by
      cases depth with
      | zero => cases run
      | succ d => exact ⟨d, rfl⟩
    rw [wrap_record_run d plain] at run
    rcases here : liveWrapper? c st.heap (.record r) with _ | found <;> rw [here] at run
    · -- a model would have to be made, and that is refused
      cases d with
      | zero => cases run
      | succ d =>
        rw [bind_run, create_barred d _ (by simpa using barred)] at run
        cases run
    · obtain ⟨result, rest⟩ := Prod.ext_iff.1 run
      cases Except.ok.inj result
      have same : st'.heap = st.heap := (congrArg (·.heap) rest).symm
      rw [same]
      exact ⟨.refl _, fun _ => rfl, live here⟩

/-- The model that is read is attached to the record that the field holds. -/
theorem get_attached {depth : Nat} (hc : c.schema = s) (reached : st.heap.Reached s)
    (embeds : s.Embeds p t) (there : st.heap.Holds (.model m))
    (raw : (fieldOf st.heap m p).isModel = false)
    (run : readProperty (Engine.perform depth) m p c st = (.ok (.model i), st')) :
    ∃ r, fieldOf st'.heap m p = .record r ∧ st'.heap.attached? r = some i := by
  subst hc
  rw [readProperty_model _ c st m embeds.getter embeds.type] at run
  split at run
  · obtain ⟨same, -⟩ := Prod.ext_iff.1 run
    rw [Except.ok.inj same] at raw
    cases raw
  · split at run
    · obtain ⟨same, -⟩ := Prod.ext_iff.1 run
      cases hv : fieldOf st.heap m p <;> rw [hv] at same raw <;> first | cases same | cases raw
    · rename_i hn _
      have hn : (fieldOf st.heap m p).isNothing = false :=
        Bool.eq_false_iff.2 fun e => hn (by simp [e])
      obtain ⟨r, hr⟩ := represent_record_of_ok (c := { c with held := [.model m] ++ c.held })
        embeds.plain embeds.structured hn raw run
      rw [hr] at run
      obtain ⟨grows, fields, attached⟩ := represent_attached
        (c := { c with held := [.model m] ++ c.held }) embeds.plain embeds.structured
        (hr ▸ holds_fieldOf reached.closed there p) run
      exact ⟨r, (fieldOf_eq there grows fields p).trans hr, attached⟩

/-! ### By name -/

theorem get_ok (there : st.heap.Holds (.model m)) (h : get m name c st = (.ok v, st')) :
    ∃ q d, (c.schema.type (st'.heap.type m)).property? name = some q ∧
      readProperty (Engine.perform d) m q c st = (.ok v, st') := by
  obtain ⟨q, st₁, found, read⟩ := bind_ok h
  rcases known : (c.schema.type (st.heap.type m)).property? name with _ | q'
  · rw [property_missing known] at found
    cases found
  · rw [property_found known] at found
    cases found
    obtain ⟨d, hd⟩ := c.schema.budget_eq_succ q.weight
    have grows := (perform_steady c.schema (c.schema.budget q.weight) (.get m q)).grows rfl read
    refine ⟨q, d, by rw [grows.type_eq there, known], ?_⟩
    change Engine.perform (c.schema.budget q.weight) (.get m q) c st = _ at read
    rw [hd] at read
    exact read

/-- Setting a property to an instance writes the record of the instance, once it is prepared. -/
theorem set_instance_run (embeds : c.schema.Embeds p t)
    (declared : (c.schema.type (st.heap.type m)).property? name = some p)
    (data : st.heap.data i = .record r) (inst : c.schema.derivesFrom (st.heap.type i) t = true) :
    set m name (.model i) c st = wrote m p.storageKey
      (match liveWrapper? { c with held := .record r :: .model m :: c.held } st.heap (.record r) with
      | some _ => (.ok (.record r), st)
      | none =>
        (concerning p (Engine.perform (c.schema.budget p.weight - 2) (.create t (some (.record r))))
          >>= fun _ => pure (.record r)) { c with held := .record r :: .model m :: c.held } st) := by
  obtain ⟨d, hd⟩ := c.schema.budget_eq_add_two p.weight
  have writes : setProperty m p (.model i) c st =
      writeProperty (Engine.perform (d + 1)) m p (.model i) c st := by
    show Engine.perform (c.schema.budget p.weight) (.set m p (.model i)) c st = _
    rw [hd]
    rfl
  rw [set_declared declared, writes, writeProperty_run _ embeds.setter,
    prepared_instance (c := { c with held := [.model m] ++ c.held }) _ embeds data inst,
    show c.schema.budget p.weight - 2 = d by omega]
  rfl

/-- Where no model of the record is in use, making one for the check leaves the record that is
written to where it is. -/
theorem set_instance_made {own : RecordId} (embeds : c.schema.Embeds p t)
    (declared : (c.schema.type (st.heap.type m)).property? name = some p)
    (there : st.heap.Holds (.model m)) (ownData : st.heap.data m = .record own)
    (data : st.heap.data i = .record r) (inst : c.schema.derivesFrom (st.heap.type i) t = true)
    (none : liveWrapper? { c with held := .record r :: .model m :: c.held } st.heap (.record r) =
      none) :
    set m name (.model i) c st =
      match concerning p (Engine.perform (c.schema.budget p.weight - 2)
        (.create t (some (.record r)))) { c with held := .record r :: .model m :: c.held } st with
      | (.ok _, st') => (.ok (), { st' with heap := st'.heap.insert own p.storageKey (.record r) })
      | (.error fault, st') => (.error fault, st') := by
  rw [set_instance_run embeds declared data inst, none]
  dsimp only
  rw [bind_run]
  rcases made : concerning p (Engine.perform (c.schema.budget p.weight - 2)
    (.create t (some (.record r)))) { c with held := .record r :: .model m :: c.held } st
    with ⟨fault | x, st'⟩
  · rfl
  · obtain ⟨st₁, made, heap⟩ := concerning_ok made
    have grows := (perform_steady c.schema (c.schema.budget p.weight - 2)
      (.create t (some (.record r)))).grows (by rfl) made
    have data : st₁.heap.data m = .record own := (grows.data_eq there).trans ownData
    dsimp only [wrote, pure_run]
    rw [heap, Heap.record?, data]
    rfl

/-! ### Assigning an instance -/

/-- **Assigning an instance stores its record as it is.**  Let the types of a schema be derived in
any way and the heap come about by any operations.  Let a property without accessors be declared
with a type that has properties and wraps plainly, and let an instance of this type or of one
derived from it be set for the property, with any options.

While a model of the instance's record is in use (the instance itself, if something holds it and its
record is linked to it), this succeeds, stores the very record, and changes nothing else: no other
field, no model and no diagnostic.

If no model of the record is in use, one is made of it first, as when the type is asked for an
instance made of this record.  If that fails, so does setting the property, in the same way;
otherwise the very record is stored.

In particular, storing again what was read changes nothing at all: whenever reading the property
gives an instance of the type, where the field holds no model, setting the property to it while it
is held succeeds and leaves the state as it is. -/
theorem set_instance (hs : s.Assembled) (hc : c.schema = s) (reached : st.heap.Reached s)
    (embeds : s.Embeds p t) (declared : (s.type (st.heap.type m)).property? name = some p)
    (there : st.heap.Holds (.model m)) (given : st.heap.Holds (.model i))
    (inst : s.derivesFrom (st.heap.type i) t = true) :
    ∃ r own, st.heap.record? i = some r ∧ st.heap.record? m = some own ∧
      (∀ found, liveWrapper? { c with held := .record r :: .model m :: c.held } st.heap (.record r) =
          some found → set m name (.model i) c st =
            (.ok (), { st with heap := st.heap.insert own p.storageKey (.record r) })) ∧
      (liveWrapper? { c with held := .record r :: .model m :: c.held } st.heap (.record r) = none →
        set m name (.model i) c st =
          match concerning p (Engine.perform (s.budget p.weight - 2) (.create t (some (.record r))))
            { c with held := .record r :: .model m :: c.held } st with
          | (.ok _, st') => (.ok (), { st' with heap := st'.heap.insert own p.storageKey (.record r) })
          | (.error fault, st') => (.error fault, st')) ∧
      ∀ c₀ st₀, c₀.schema = s → st₀.heap.Reached s → st₀.heap.Holds (.model m) →
        (fieldOf st₀.heap m p).isModel = false → get m name c₀ st₀ = (.ok (.model i), st) →
          .model i ∈ c.held → (∀ w ∈ c.held ++ s.heldValues, st.heap.Holds w) →
            set m name (.model i) c st = (.ok (), st) := by
  subst hc
  -- both types have properties, so both models are around records
  obtain ⟨r, data⟩ := Value.exists_of_isRecord
    (reached.shaped i given (hs.inherits.isStructured_of_derivesFrom inst embeds.structured))
  obtain ⟨own, ownData⟩ := Value.exists_of_isRecord
    (reached.shaped m there (ModelType.isStructured_of_property? declared))
  have record : st.heap.record? m = some own := by
    rw [Heap.record?, ownData]
    rfl
  have live : ∀ found, liveWrapper? { c with held := .record r :: .model m :: c.held } st.heap
      (.record r) = some found → set m name (.model i) c st =
        (.ok (), { st with heap := st.heap.insert own p.storageKey (.record r) }) := by
    intro found e
    rw [set_instance_run embeds declared data inst, e]
    dsimp only [wrote]
    rw [record]
    rfl
  refine ⟨r, own, by rw [Heap.record?, data]; rfl, record, live,
    set_instance_made embeds declared there ownData data inst, ?_⟩
  intro c₀ st₀ hc₀ reached₀ there₀ raw read held used
  obtain ⟨q, d, found, read⟩ := get_ok there₀ read
  obtain rfl : q = p := by
    rw [← hc₀, found] at declared
    exact Option.some.inj declared
  obtain ⟨r', field, attached⟩ := get_attached hc₀ reached₀ embeds there₀ raw read
  obtain ⟨-, data', -⟩ := reached.tied r' i attached
  obtain rfl : r = r' := Value.record.inj (data.symm.trans data')
  -- the model that was read is in use, so it is found from its record again
  have busy : liveWrapper? { c with held := .record r :: .model m :: c.held } st.heap (.record r) =
      some i := by
    refine Heap.wrapper?_of_mem reached.closed (fun w hw => ?_) attached (by simp [held])
    have record := Heap.holds_of_attached? attached
    simp only [List.cons_append, List.mem_cons] at hw
    rcases hw with rfl | rfl | rfl | hw
    exacts [record, record, there, used w hw]
  -- and the field gets what it already holds
  have same : (st.heap.fields own).get q.storageKey = .record r := by
    rw [← field, fieldOf, record]
    rfl
  rw [live i busy, ← same, Heap.insert_get]

/-! ### Circles and shapes -/

theorem framed_embeds : frameSchema.Embeds framed ⟨1⟩ :=
  ⟨rfl, rfl, rfl, ⟨rfl, rfl⟩, by decide⟩

/-- The record of a circle is stored where a shape is declared, though no shape can be made. -/
theorem set_instance_circle :
    set ⟨1⟩ "shape" (.model ⟨0⟩) ⟨frameSchema, [.model ⟨0⟩, .model ⟨1⟩]⟩ makeFrame.2 =
      (.ok (), { makeFrame.2 with heap := makeFrame.2.heap.insert ⟨1⟩ "shape" (.record ⟨0⟩) }) := by
  obtain ⟨r, own, hr, hown, stored, -⟩ := @set_instance frameSchema
    ⟨frameSchema, [.model ⟨0⟩, .model ⟨1⟩]⟩ makeFrame.2 ⟨1⟩ ⟨1⟩ ⟨0⟩ framed "shape"
    frameSchema_built.assembled rfl makeFrame_reached framed_embeds (by decide +kernel)
    (by decide +kernel) (by decide +kernel) (by decide +kernel)
  have circle : makeFrame.2.heap.record? ⟨0⟩ = some ⟨0⟩ := by decide +kernel
  have frame : makeFrame.2.heap.record? ⟨1⟩ = some ⟨1⟩ := by decide +kernel
  obtain rfl : (⟨0⟩ : RecordId) = r := Option.some.inj (circle.symm.trans hr)
  obtain rfl : (⟨1⟩ : RecordId) = own := Option.some.inj (frame.symm.trans hown)
  exact stored ⟨0⟩ (by decide +kernel)

/-- Without the circle, a shape would have to be made. -/
example : (set ⟨1⟩ "shape" (.model ⟨0⟩) ⟨frameSchema, [.model ⟨1⟩]⟩ makeFrame.2).1 =
    .error (.error (.noInstances "Shape")) := by decide +kernel

/-! ### An item that was never valid -/

/-- The item and the box are in use. -/
def itemInUse : Context := ⟨Run.boxSchema, [.model ⟨0⟩, .model ⟨1⟩]⟩

/-- The data of an item, with a key that items do not have. -/
def oddData : Heap :=
  (Heap.empty.addRecord (.ofList [("n", .number (.ofInt 5)), ("extra", .bool true)])).2

/-- An item is made of them while diagnostics are collected. -/
def oddItem : Except Fault ModelId × State :=
  (Operation.create ⟨1⟩ (some (.record ⟨0⟩))).run ⟨Run.boxSchema, []⟩ ⟨oddData, .collecting [], []⟩

/-- A box, made next. -/
def emptyBox : Except Fault ModelId × State :=
  (Operation.create ⟨2⟩ none).run ⟨Run.boxSchema, [.model ⟨0⟩]⟩ ⟨oddItem.2.heap, .throwing, []⟩

/-- The item is taken for a box; that fails, but its record has let go of it. -/
def mistaken : Except Fault Value × State :=
  (Operation.wrap (.model ⟨2⟩) (.model ⟨0⟩)).run itemInUse emptyBox.2

theorem mistaken_reached : mistaken.2.heap.Reached Run.boxSchema := by
  have nothing : Run.boxSchema.heldValues = [] := by decide +kernel
  have data : oddData.Reached Run.boxSchema :=
    .single (.addRecord fun v hv _ => by
      revert v
      decide +kernel)
  have item : oddItem.2.heap.Reached Run.boxSchema :=
    @Heap.Reached.perform _ _ _ ⟨oddData, .collecting [], []⟩ data _ _ rfl (by
      rw [nothing]
      decide +kernel)
  have box : emptyBox.2.heap.Reached Run.boxSchema :=
    @Heap.Reached.perform _ _ _ ⟨oddItem.2.heap, .throwing, []⟩ item _ _ rfl (by
      rw [nothing]
      decide +kernel)
  exact box.perform _ _ rfl (by
    rw [nothing]
    decide +kernel)

theorem boxedItem_embeds : Run.boxSchema.Embeds Run.boxedItem ⟨1⟩ :=
  ⟨rfl, rfl, rfl, ⟨rfl, rfl⟩, by decide⟩

/-- An instance is in use, but its record does not lead to it: the record is checked, and the key
that was recorded when the instance was made is refused now. -/
theorem set_instance_checked :
    mistaken.2.heap.Reached Run.boxSchema ∧ Run.boxSchema.Embeds Run.boxedItem ⟨1⟩ ∧
      (Run.boxSchema.type (mistaken.2.heap.type ⟨1⟩)).property? "item" = some Run.boxedItem ∧
      Run.boxSchema.derivesFrom (mistaken.2.heap.type ⟨0⟩) ⟨1⟩ = true ∧
      (set ⟨1⟩ "item" (.model ⟨0⟩) itemInUse mistaken.2).1 =
        .error (.error (.unrecognizedKey "extra")) :=
  ⟨mistaken_reached, boxedItem_embeds, by decide +kernel, by decide +kernel, by decide +kernel⟩

end Engine

end Overlay
