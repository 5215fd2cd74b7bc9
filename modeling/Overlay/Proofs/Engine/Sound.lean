import Overlay.Proofs.Engine.Steady

/-!
# Operations take steps of the heap

Hooks or not, and however a run ends, an operation does nothing to the heap but take the steps of
`Heap.Step`.  So whatever holds at the start and is kept by each of these steps holds afterwards.

* `Engine.perform_steady` : every operation is steady;
* `Engine.run_sound` : no run leaves a dangling reference, and its result is there.
-/

namespace Overlay

/-- The values that an operation is given.  A call may be one of a method, which may use whatever
the types keep. -/
def Operation.given (s : Schema) {α : Type} : Operation α → List Value
  | .coerce _ v => [v]
  | .wrap _ v => [v]
  | .create _ data => data.toList
  | .get m p => .model m :: p.usedValues s
  | .set m p v => .model m :: v :: p.usedValues s
  | .call m _ arguments => .model m :: (arguments ++ s.heldValues)

/-- The values that it gives. -/
def Operation.gives {α : Type} : Operation α → α → List Value
  | .coerce _ _, v => [v]
  | .wrap _ _, v => [v]
  | .create _ _, m => [.model m]
  | .get _ _, v => [v]
  | .set _ _ _, _ => []
  | .call _ _ _, v => [v]

namespace Engine

/-! ### The operations, given steady ones -/

section Bodies

variable {s : Schema} {perform : Perform}
  (h : ∀ {α : Type} (op : Operation α), Steady s (op.given s) (perform op) op.gives)

include h

/-! #### Hooks -/

theorem get_steady (m : ModelId) (name : String) :
    Steady s [.model m] (do perform (.get m (← property m name))) ([·]) :=
  .bind (.property m name) fun p => (h (.get m p)).mono (by simp +contextual [Operation.given])

theorem set_steady (m : ModelId) (name : String) (v : Value) :
    Steady s [.model m, v] (do perform (.set m (← property m name) v)) fun _ => [] :=
  .bind (.property m name) fun p => (h (.set m p v)).mono (by simp +contextual [Operation.given])

section Actions

variable {vs : List Value} {scene : Scene} {acc : Value} (given : acc ∈ vs)
  (around : ∀ v ∈ scene.heldValues, v ∈ vs)

omit h in
include given in
theorem keep_steady : Steady s vs (pure acc) ([·]) :=
  .pure fun _ hv => List.mem_singleton.1 hv ▸ given

omit h in
include around in
theorem scene_model_mem {m : ModelId} (hm : scene.model = some m) : .model m ∈ vs :=
  around _ (by simp [Scene.heldValues, hm])

omit h in
include around in
theorem sceneRecord_steady :
    Steady s vs (recordOf? scene.model) fun r => (r.map Value.record).toList :=
  (Steady.recordOf? scene.model).mono fun v hv => around v (List.mem_append_left _ hv)

omit h in
include given in
theorem runUpperCase_steady : Steady s vs (runAction perform scene .upperCase acc) ([·]) := by
  unfold runAction
  cases acc with
  | string x => exact .scalar fun _ => trivial
  | _ => exact keep_steady given

omit h in
include given in
theorem runToText_steady : Steady s vs (runAction perform scene .toText acc) ([·]) := by
  unfold runAction
  dsimp only
  split
  · exact keep_steady given
  · exact .look fun _ => .scalar fun _ => trivial

omit h in
include given in
theorem runParseNumber_steady : Steady s vs (runAction perform scene .parseNumber acc) ([·]) := by
  unfold runAction
  dsimp only
  split
  · split
    · exact .scalar fun _ => trivial
    · exact .invalid _
  · exact keep_steady given

omit h in
include given in
theorem runIntoRecord_steady (key : String) :
    Steady s vs (runAction perform scene (.intoRecord key) acc) ([·]) := by
  unfold runAction
  dsimp only
  split
  · exact keep_steady given
  · refine .bind (.addRecord fun v hv => ?_) fun r => .pure (by simp)
    obtain rfl : v = acc := by simpa using Fields.mem_values_ofList hv
    exact given

omit h in
theorem runReject_steady : Steady s vs (runAction perform scene .reject acc) ([·]) := by
  unfold runAction
  dsimp only
  split
  · exact .invalid _
  · exact .look fun _ => .raise _

omit h in
include given in
theorem runLog_steady (tag : String) : Steady s vs (runAction perform scene (.log tag) acc) ([·]) :=
  .look fun _ => .bind (.log _) fun _ => keep_steady given

omit h in
include given in
theorem runLogOptions_steady : Steady s vs (runAction perform scene .logOptions acc) ([·]) :=
  .options fun _ => .bind (.log _) fun _ => keep_steady given

include given around in
theorem runGet_steady (name : String) :
    Steady s vs (runAction perform scene (.get name) acc) ([·]) := by
  unfold runAction
  dsimp only
  split
  · rename_i m hm
    refine .holding ((get_steady h m name).mono ?_) (by simpa using given)
    simpa using scene_model_mem around hm
  · exact keep_steady given

include given around in
theorem runSet_steady (name : String) :
    Steady s vs (runAction perform scene (.set name) acc) ([·]) := by
  unfold runAction
  dsimp only
  split
  · rename_i m hm
    refine .bind (.holding ((set_steady h m name acc).mono ?_) (by simpa using given)) fun _ =>
      keep_steady given
    simpa using ⟨scene_model_mem around hm, given⟩
  · exact keep_steady given

omit h in
include given around in
theorem runStore_steady : Steady s vs (runAction perform scene .store acc) ([·]) := by
  unfold runAction
  refine .bind (sceneRecord_steady around) fun r => ?_
  have given : acc ∈ (r.map Value.record).toList ++ vs := List.mem_append_right _ given
  split
  · exact .bind (.changeHeap fun _ h _ there =>
      .insert (there _ (by simp)) _ (there _ given)) fun _ => keep_steady given
  · exact keep_steady given

omit h in
include given around in
theorem runLoad_steady : Steady s vs (runAction perform scene .load acc) ([·]) := by
  unfold runAction
  refine .bind (sceneRecord_steady around) fun r => ?_
  split
  · rename_i r p _
    refine .heap fun h => ⟨[(h.fields r).get p.storageKey], fun P seals there w hw => ?_,
      .pure (by simp)⟩
    rw [List.mem_singleton.1 hw]
    exact seals.field (there _ (by simp)) _
  · exact keep_steady (List.mem_append_right _ given)

include given in
theorem runCreate_steady : Steady s vs (runAction perform scene .create acc) ([·]) := by
  unfold runAction
  dsimp only
  split
  · exact .bind ((h (.create _ (some acc))).mono (by simpa [Operation.given] using given)) fun m =>
      .pure (by simp [Operation.gives])
  · exact keep_steady given

omit h in
include given in
theorem runUnwrap_steady : Steady s vs (runAction perform scene .unwrap acc) ([·]) := by
  refine .heap fun h => ⟨[h.unwrap acc], fun P seals there w hw => ?_, .pure (by simp)⟩
  rw [List.mem_singleton.1 hw]
  exact seals.unwrap (there _ given)

omit h in
include given in
theorem runTypeName_steady : Steady s vs (runAction perform scene .typeName acc) ([·]) := by
  unfold runAction
  dsimp only
  split
  · exact .bind (.typeOf _) fun _ => .scalar fun _ => trivial
  · exact .schema (.scalar fun _ => trivial)
  · exact keep_steady given

omit h in
include given around in
theorem runArguments_steady : Steady s vs (runAction perform scene .arguments acc) ([·]) := by
  unfold runAction
  dsimp only
  split
  · rename_i us hus
    refine .bind (.addArray fun u hu => around u ?_) fun a => .pure (by simp)
    simp [Scene.heldValues, hus, hu]
  · exact keep_steady given

omit h in
include given around in
theorem runArgument_steady (i : Nat) :
    Steady s vs (runAction perform scene (.argument i) acc) ([·]) := by
  unfold runAction
  cases hus : scene.arguments with
  | none => exact keep_steady given
  | some us =>
    simp only [Option.elim_some, List.getD_eq_getElem?_getD]
    rcases hi : us[i]? with _ | u
    · exact .scalar fun _ => trivial
    · refine .pure fun v hv => around v ?_
      simp [Scene.heldValues, hus, List.mem_singleton.1 hv, List.mem_of_getElem? hi]

include given around in
theorem runCall_steady (known : ∀ v ∈ s.heldValues, v ∈ vs) (name : String) :
    Steady s vs (runAction perform scene (.call name) acc) ([·]) := by
  unfold runAction
  dsimp only
  split
  · rename_i m hm
    refine .holding ((h (.call m name _)).mono fun v hv => ?_) (by simpa using given)
    simp only [Operation.given, List.mem_cons, List.mem_append] at hv
    rcases hv with rfl | hv | hv
    · exact scene_model_mem around hm
    · exact around v (List.mem_append_right _ hv)
    · exact known v hv
  · exact keep_steady given

omit h in
include given around in
theorem runSnapshot_steady : Steady s vs (runAction perform scene .snapshot acc) ([·]) := by
  unfold runAction
  dsimp only
  split
  · rename_i m hm
    exact .holding (.snapshot (scene_model_mem around hm)) (by simpa using given)
  · exact keep_steady given

include given around in
theorem runRequire_steady (name : String) :
    Steady s vs (runAction perform scene (.require name) acc) ([·]) := by
  unfold runAction
  dsimp only
  split
  · rename_i m hm
    have model : ∀ v ∈ [.model m], v ∈ vs := by simpa using scene_model_mem around hm
    refine .bind (.holding ((get_steady h m name).mono model) (by simpa using given)) fun v => ?_
    have given : acc ∈ [v] ++ vs := List.mem_append_right _ given
    split
    · exact .bind (.invalid _) fun _ => keep_steady (List.mem_append_right _ given)
    · exact keep_steady given
  · exact keep_steady given

omit h in
theorem runPropertyName_steady :
    Steady s vs (runAction perform scene .propertyName acc) ([·]) := by
  have name : ∀ p : Option Property, Steady s vs
      (pure (p.elim Value.undefined fun p => .string p.name)) ([·]) := by
    intro p
    refine .scalar fun h => ?_
    cases p <;> trivial
  unfold runAction
  dsimp only
  split
  · rw [pure_bind]
    exact name _
  · refine .options fun o => ?_
    rw [pure_bind]
    exact name _

omit h in
include given around in
theorem runIncrement_steady (key : String) :
    Steady s vs (runAction perform scene (.increment key) acc) ([·]) := by
  unfold runAction
  refine .bind (sceneRecord_steady around) fun r => ?_
  have given : acc ∈ (r.map Value.record).toList ++ vs := List.mem_append_right _ given
  split
  · exact .look fun h => .bind (.changeHeap fun _ _ seals there =>
      .insert (there _ (by simp)) _ (seals.scalar fun _ => trivial)) fun _ => keep_steady given
  · exact keep_steady given

end Actions

theorem runAction_steady (scene : Scene) (action : Action) (acc : Value) :
    Steady s (acc :: (scene.heldValues ++ (action.heldValues ++ s.heldValues)))
      (runAction perform scene action acc) ([·]) := by
  have given : acc ∈ acc :: (scene.heldValues ++ (action.heldValues ++ s.heldValues)) :=
    List.mem_cons_self
  have around : ∀ v ∈ scene.heldValues,
      v ∈ acc :: (scene.heldValues ++ (action.heldValues ++ s.heldValues)) := by simp +contextual
  cases action with
  | forget => exact .scalar fun _ => trivial
  | constant v => exact .pure (by simp [Action.heldValues])
  | upperCase => exact runUpperCase_steady given
  | toText => exact runToText_steady given
  | parseNumber => exact runParseNumber_steady given
  | intoRecord key => exact runIntoRecord_steady given key
  | reject => exact runReject_steady
  | signal e => exact .signal e
  | log tag => exact runLog_steady given tag
  | logOptions => exact runLogOptions_steady given
  | get name => exact runGet_steady h given around name
  | set name => exact runSet_steady h given around name
  | store => exact runStore_steady given around
  | load => exact runLoad_steady given around
  | create => exact runCreate_steady h given
  | coerce t => exact (h (.coerce t acc)).mono (by simp [Operation.given])
  | wrap t => exact (h (.wrap t acc)).mono (by simp [Operation.given])
  | unwrap => exact runUnwrap_steady given
  | typeName => exact runTypeName_steady given
  | arguments => exact runArguments_steady given around
  | argument i => exact runArgument_steady given around i
  | call name => exact runCall_steady h given around (by simp +contextual) name
  | snapshot => exact runSnapshot_steady given around
  | require name => exact runRequire_steady h given around name
  | propertyName => exact runPropertyName_steady
  | increment key => exact runIncrement_steady given around key

theorem runHook_steady (scene : Scene) (hook : Hook) (v : Value) :
    Steady s (v :: (scene.heldValues ++ (Hook.heldValues hook ++ s.heldValues)))
      (runHook perform scene hook v) ([·]) := by
  have actions : ∀ (hook : Hook) (v : Value),
      Steady s (v :: (scene.heldValues ++ (Hook.heldValues hook ++ s.heldValues)))
        (runActions perform scene hook v) ([·]) := by
    intro hook
    induction hook with
    | nil => exact fun v => .pure (by simp)
    | cons action hook ih =>
      intro v
      have held : Hook.heldValues (action :: hook) =
          action.heldValues ++ Hook.heldValues hook := rfl
      rw [held]
      refine .bind (.holding ((runAction_steady h scene action v).mono ?_) ?_) fun w =>
        (ih w).mono ?_
      all_goals grind
  unfold runHook
  split
  · exact actions hook v
  · exact .apart (actions hook v)

theorem runRule_steady {constants : Constants → TypeId → Value → Engine Value}
    (hc : ∀ cs t v, Steady s (v :: cs.heldValues) (constants cs t v) ([·])) (t : TypeId)
    (v : Value) (rule : Rule) :
    Steady s (v :: rule.usedValues s) (runRule perform constants t v rule) ([·]) := by
  cases rule with
  | hook actions =>
    exact (runHook_steady h (.ofType t) actions v).mono
      (by simp +contextual [Scene.heldValues, Scene.ofType, Rule.usedValues])
  | constants cs => exact hc cs t v

theorem coerceUnder_steady (t : TypeId) (v : Value) :
    Steady s [v] (coerceUnder perform t v) ([·]) := by
  refine .schema ?_
  split
  · rename_i rule hr
    refine .kept (rule.usedValues s) ((runRule_steady h coerceConstant_steady t v rule).mono ?_)
      fun w hw => Schema.used_of_type (ModelType.used_of_coerce hr hw)
    simp +contextual
  · exact .pure (by simp)

/-! #### Reading and writing -/

theorem adapt_steady (p : Property) (v : Value) : Steady s [v] (adapt perform p v) ([·]) := by
  unfold adapt
  split
  · rename_i m
    refine .heap fun h' => ⟨[h'.data m], fun P seals there w hw => ?_, .schema ?_⟩
    · rw [List.mem_singleton.1 hw]
      exact seals.data (there _ List.mem_cons_self)
    · split
      · exact .pure (by simp)
      · exact (h (.coerce p.type _)).mono (by simp [Operation.given])
  · exact h (.coerce p.type v)

theorem settle_steady (p : Property) (v : Value) : Steady s [v] (settle perform p v) ([·]) := by
  refine .schema ?_
  split
  · exact .pure (by simp)
  · refine .bind (.holding (h (.wrap p.type v)) (by simp)) fun w => ?_
    split
    · exact .scalar fun _ => trivial
    · refine .heap fun h => ⟨[h.unwrap v], fun P seals there u hu => ?_, .pure (by simp)⟩
      rw [List.mem_singleton.1 hu]
      exact seals.unwrap (there _ (by simp))

theorem stored_steady (p : Property) (v : Value) : Steady s [v] (stored perform p v) ([·]) :=
  .concerning p (.bind (adapt_steady h p v) fun w => (settle_steady h p w).mono (by simp))

theorem prepared_steady (p : Property) (v : Value) : Steady s [v] (prepared perform p v) ([·]) :=
  .bind (.concerning p (adapt_steady h p v)) fun w =>
    .concerning p ((settle_steady h p w).mono (by simp))

omit h in
theorem putField_steady (m : ModelId) (p : Property) (u : Value) :
    Steady s [.model m, u] (do
      match (← heap).record? m with
      | some r => changeHeap (·.insert r p.storageKey u)
      | none => return ()) fun _ => [] := by
  refine .heap fun h => ⟨((h.record? m).map Value.record).toList, fun P seals there w hw => ?_, ?_⟩
  · obtain ⟨r, hr, rfl⟩ := Option.map_eq_some_iff.1 (Option.mem_toList.1 hw)
    exact seals.record? (there _ List.mem_cons_self) hr
  · split
    · rename_i r hr
      rw [hr]
      exact .changeHeap fun _ _ _ there => .insert (there _ (by simp)) _ (there u (by simp))
    · exact .pure (by simp)

theorem writeProperty_steady (m : ModelId) (p : Property) (v : Value) :
    Steady s (.model m :: v :: p.usedValues s) (writeProperty perform m p v) fun _ => [] := by
  unfold writeProperty
  cases hs : p.setter with
  | none =>
    refine .holding (.bind (.concerning p ((adapt_steady h p v).mono (by simp))) fun w =>
      .bind (.concerning p ((settle_steady h p w).mono (by simp))) fun u => ?_) (by simp)
    exact (putField_steady m p u).mono (by simp)
  | some hook =>
    refine .holding (.bind (.concerning p ((adapt_steady h p v).mono (by simp))) fun w =>
      .bind ((runHook_steady h (.accessor m p) hook w).mono ?_) fun _ => .pure (by simp)) (by simp)
    simp +contextual [Scene.heldValues, Scene.accessor, Property.usedValues, Property.heldValues,
      hs]

omit h in
theorem freshModel_steady (t : TypeId) (v : Value)
    (shape : (s.type t).isStructured = true → v.isRecord = true) :
    Steady s [v] (freshModel t v) ([·]) := by
  intro G c st hc sound
  have there : G.Has st.heap v := sound.there v List.mem_cons_self
  have added : G.Keeps st.heap (st.heap.addModel t v).2 := .move sound.ok (.addModel t there shape)
  have held := st.heap.index_addModel_lt t v
  have new : G.Has (st.heap.addModel t v).2 (.model (st.heap.addModel t v).1) :=
    G.fresh sound.ok added.grows (Nat.lt_irrefl _) held
  have run : ∃ h', freshModel t v c st =
      (.ok (.model (st.heap.addModel t v).1), { st with heap := h' }) ∧
      G.Keeps st.heap h' ∧ G.Has h' (.model (st.heap.addModel t v).1) := by
    rcases hv : v.isRecord with _ | _
    · exact ⟨_, freshModel_other t hv c st, added, new⟩
    · obtain ⟨r, rfl⟩ := Value.exists_of_isRecord hv
      refine ⟨_, freshModel_record t r c st, ?_⟩
      rw [hc]
      by_cases hstr : (s.type t).isStructured = true
      · rw [if_pos hstr]
        have attach : G.Keeps (st.heap.addModel t (.record r)).2
            ((st.heap.addModel t (.record r)).2.setWrapper r
              (some (st.heap.addModel t (.record r)).1)) := by
          refine .move added.ok (.attach (G.has added.grows there) held
            (st.heap.data_addModel t (.record r)) ?_)
          rw [st.heap.type_addModel]
          exact hstr
        exact ⟨added.trans attach, G.has attach.grows new⟩
      · rw [if_neg hstr]
        exact ⟨added, new⟩
  obtain ⟨h', run, keeps, new⟩ := run
  rw [run]
  refine ⟨keeps, fun a ha w hw => ?_⟩
  cases ha
  rw [List.mem_singleton.1 hw]
  exact new

theorem represent_steady (t : TypeId) (v : Value) :
    Steady s [v] (represent perform t v) ([·]) := by
  have wrapped : Steady s [v] (apart (perform (.wrap (.model t) v))) ([·]) :=
    .apart (h (.wrap (.model t) v))
  refine .schema ?_
  dsimp only
  split
  · exact wrapped
  · split
    · refine .bind (.holding (.wrapper? (by simp)) (by simp)) fun m => ?_
      split
      · exact .pure (by simp)
      · exact (freshModel_steady t _ fun _ => rfl).mono (by simp)
    · split
      · exact wrapped
      · rename_i hstr
        exact freshModel_steady t v fun h => absurd h hstr

theorem readProperty_steady (m : ModelId) (p : Property) :
    Steady s (.model m :: p.usedValues s) (readProperty perform m p) ([·]) := by
  refine .holding ?_ (by simp)
  split
  · rename_i hook hg
    refine .scalars [.undefined] ((runHook_steady h (.accessor m p) hook _).mono ?_) ?_
    · simp only [Scene.heldValues, Scene.accessor, Property.usedValues, Property.heldValues, hg]
      grind
    · simp [Heap.Holds]
  · refine .heap fun h' => ?_
    let v := (h'.record? m).elim .undefined fun r => (h'.fields r).get p.storageKey
    have stored : ∀ P : Value → Prop, h'.Sealed P → P (.model m) → P v := by
      intro P seals there
      rcases hr : h'.record? m with _ | r
      · simp only [v, hr, Option.elim_none]
        exact seals.scalar fun _ => trivial
      · simp only [v, hr, Option.elim_some]
        exact seals.field (seals.record? there hr) _
    refine ⟨[v, h'.unwrap v], fun P seals there w hw => ?_, .schema ?_⟩
    · have stored := stored P seals (there _ List.mem_cons_self)
      rcases List.mem_cons.1 hw with rfl | hw
      · exact stored
      · rw [List.mem_singleton.1 hw]
        exact seals.unwrap stored
    · dsimp only
      split
      · exact .pure (by simp [v])
      · split
        · exact .pure (by simp [v])
        · split
          · exact (represent_steady h _ _).mono (by simp [v])
          · exact .apart ((h (.wrap _ _)).mono (by simp [v, Operation.given]))

/-! #### Constructing and wrapping -/

omit h in
theorem recordFor_steady (data : Option Value) :
    Steady s data.toList (recordFor data) fun r => [.record r] := by
  have fresh : ∀ {vs}, Steady s vs (allocate (·.addRecord .empty)) fun r => [.record r] :=
    .addRecord fun v hv => absurd hv List.not_mem_nil
  unfold recordFor
  split
  · rename_i r hr
    cases data with
    | none => cases hr
    | some v =>
      cases hr
      exact .pure (by simp)
  · exact fresh
  · exact fresh
  · exact .bind (.invalid _) fun _ => fresh

theorem admitEntries_steady (m : ModelId) (t : TypeId) (es : List (String × Value)) :
    Steady s (.model m :: es.map Prod.snd) (admitEntries perform m (s.type t) es) fun _ => [] := by
  induction es with
  | nil => exact .pure (by simp)
  | cons e es ih =>
    obtain ⟨key, v⟩ := e
    have entry : Steady s (.model m :: v :: es.map Prod.snd)
        (admitEntry perform m (s.type t) key v) fun _ => [] := by
      unfold admitEntry
      split
      · exact .pure (by simp)
      · split
        · rename_i p hp
          refine .kept (p.usedValues s) ((h (.set m p v)).mono ?_) fun w hw =>
            Schema.used_of_type (ModelType.used_of_property? hp hw)
          simp +contextual [Operation.given]
        · split
          · exact .pure (by simp)
          · exact .bind (.signal _) fun _ => .pure (by simp)
    exact .bind (.holding entry (by simp +contextual)) fun _ => ih.mono (by simp +contextual)

omit h in
theorem checkConstant_steady (cs : Constants) (m : ModelId) :
    Steady s [] (checkConstant cs m) fun _ => [] := by
  refine .look fun h => ?_
  split
  · exact .bind (.invalid _) fun _ => .pure (by simp)
  · exact .pure (by simp)

theorem runInit_steady (m : ModelId) {rules : List Rule}
    (hr : ∀ rule ∈ rules, ∀ v ∈ rule.usedValues s, v ∈ s.usedValues) :
    Steady s [.model m] (runInit perform m rules) fun _ => [] := by
  induction rules with
  | nil => exact .pure (by simp)
  | cons rule rules ih =>
    have rest := ih fun rule hr' => hr rule (List.mem_cons_of_mem _ hr')
    unfold runInit
    split
    · rename_i actions
      have hook : Steady s ((Rule.hook actions).usedValues s ++ [.model m])
          (runHook perform (.init m) actions (.model m)) ([·]) := by
        refine (runHook_steady h (.init m) actions _).mono ?_
        simp only [Scene.heldValues, Scene.init, Rule.usedValues]
        grind
      exact .bind (.kept _ (.holding hook (by simp)) (hr _ List.mem_cons_self)) fun _ =>
        rest.mono (by simp)
    · exact .bind ((checkConstant_steady _ m).mono (by simp)) fun _ => rest.mono (by simp)

/-- The model is attached when the entries of its record are all admitted; all the while it wraps
the record. -/
theorem construct_steady (t : TypeId) (data : Option Value) :
    Steady s data.toList (construct perform t data) fun m => [.model m] := by
  have finish : ∀ m : ModelId, Steady s [.model m] (do
      let s ← schema
      runInit perform m (s.initRules t)
      return m) fun m => [.model m] := fun m =>
    .schema (.bind (runInit_steady h m fun rule hr v hv => Schema.used_of_initRules hr hv) fun _ =>
      .pure (by simp))
  have admitted : ∀ (r : RecordId) (m : ModelId), Steady s [.model m, .record r]
      (do admitEntries perform m (s.type t) ((← heap).fields r).entries) fun _ => [] := by
    intro r m
    refine .heap fun h' => ⟨(h'.fields r).values, fun P seals there w hw => ?_, ?_⟩
    · exact seals.child (there (.record r) (by simp)) hw
    · exact (admitEntries_steady h m t _).mono (by simp +contextual [Fields.values])
  refine .schema ?_
  dsimp only
  split
  · exact .raise _
  · split
    · rename_i hstr
      refine .bind (recordFor_steady data) fun r => ?_
      exact (Steady.attachModel hstr _ (admitted r) finish).mono (by simp)
    · rename_i hstr
      refine .scalars [.undefined] (.bind (.addModel t ?_ fun h => absurd h hstr) fun m =>
        (finish m).mono (by simp)) (by simp [Heap.Holds])
      cases data <;> simp

omit h in
theorem release_steady (m : ModelId) : Steady s [.model m] (release m) ([·]) := by
  refine .heap fun h => ⟨[h.data m], fun P seals there w hw => ?_, ?_⟩
  · rw [List.mem_singleton.1 hw]
    exact seals.data (there _ List.mem_cons_self)
  · dsimp only
    split
    · rename_i r hr
      refine .bind (.changeHeap fun _ _ _ there => .detach (there _ ?_)) fun _ => .pure (by simp)
      simp [hr]
    · exact .pure (by simp)

omit h in
theorem instance?_steady (t : TypeId) (v : Value) :
    Steady s [v] (instance? t v) fun m => (m.map Value.model).toList := by
  unfold instance? isInstance
  split
  · simp only [bind_assoc, pure_bind]
    refine .schema (.look fun h => ?_)
    split <;> exact .pure (by simp)
  · exact .pure (by simp)

theorem wrapData_steady (t : TypeId) (v : Value) : Steady s [v] (wrapData perform t v) ([·]) := by
  have made : Steady s [v] (do return Value.model (← perform (.create t (some v)))) ([·]) :=
    .bind (h (.create t (some v))) fun m => .pure (by simp [Operation.gives])
  refine .schema ?_
  dsimp only
  split
  · exact .pure (by simp)
  · split
    · exact .raise _
    · split
      · exact .invalid v
      · split
        · refine .bind (.holding (.wrapper? (by simp)) (by simp)) fun existing => ?_
          cases existing with
          | some m => exact .pure (by simp)
          | none => exact made
        · rw [pure_bind]
          exact made

theorem wrapStandard_steady (t : TypeId) (v : Value) :
    Steady s [v] (wrapStandard perform t v) ([·]) := by
  refine .bind (instance?_steady t v) fun existing => ?_
  split
  · exact .pure (by simp)
  · refine .bind ((coerceUnder_steady h t v).mono (by simp)) fun w => ?_
    split
    · exact .pure (by simp)
    · refine .bind ((instance?_steady t w).mono (by simp)) fun existing => ?_
      split
      · exact .pure (by simp)
      · split
        · exact .bind ((release_steady _).mono (by simp)) fun u =>
            (wrapData_steady h t u).mono (by simp)
        · rw [pure_bind]
          exact (wrapData_steady h t _).mono (by simp)

theorem wrapUnder_steady (t : TypeId) (v : Value) :
    Steady s [v] (wrapUnder perform t v) ([·]) := by
  refine .schema ?_
  split
  · rename_i rule hr
    refine .kept (rule.usedValues s) ((runRule_steady h wrapConstant_steady t v rule).mono ?_)
      fun w hw => Schema.used_of_type (ModelType.used_of_wrap hr hw)
    simp +contextual
  · exact wrapStandard_steady h t v

/-! #### Calls -/

theorem runMethod_steady (m : ModelId) (method : Method) (arguments : List Value) :
    Steady s (.model m :: (arguments ++ (method.heldValues ++ s.heldValues)))
      (runMethod perform m method arguments) ([·]) := by
  unfold runMethod
  split
  · rename_i actions
    refine .scalars [.undefined] ((runHook_steady h (.method m arguments) actions _).mono ?_)
      (by simp [Heap.Holds])
    simp only [Scene.heldValues, Scene.method, Method.heldValues]
    cases arguments <;> grind
  · rename_i cs
    refine .look fun h => .scalar fun h' => ?_
    cases cs.ofModel? h m <;> trivial
  · exact .look fun _ => .scalar fun _ => trivial
  · refine .heap fun h => ⟨[h.data m], fun P seals there w hw => ?_, .pure (by simp)⟩
    rw [List.mem_singleton.1 hw]
    exact seals.data (there _ List.mem_cons_self)
  · exact .snapshot (by simp)

theorem callMethod_steady (m : ModelId) (name : String) (arguments : List Value) :
    Steady s (.model m :: (arguments ++ s.heldValues)) (callMethod perform m name arguments)
      ([·]) := by
  refine .holding (.look fun h' => .schema ?_) (by simp +contextual)
  have used : ∀ {p : Property}, (∀ v ∈ p.heldValues, v ∈ s.heldValues) →
      ∀ v ∈ p.usedValues s, v ∈ s.heldValues := by
    intro p held v hv
    unfold Property.usedValues at hv
    grind
  split
  · rename_i p hp
    have used := used fun v hv => Schema.held_of_callee? hp hv
    refine (h (.get m p)).mono fun v hv => ?_
    grind [Operation.given]
  · rename_i p hp
    have used := used fun v hv => Schema.held_of_callee? hp hv
    refine .bind (.apart (.scalars [.undefined] ((h (.set m p _)).mono fun v hv => ?_) ?_)) fun _ =>
      .scalar fun _ => trivial
    · cases arguments <;> grind [Operation.given]
    · simp [Heap.Holds]
  · rename_i method hm
    have held : ∀ v ∈ method.heldValues, v ∈ s.heldValues := fun v hv =>
      Schema.held_of_callee? hm hv
    exact (runMethod_steady h m method arguments).mono (by grind)
  · exact .schema (.raise _)

theorem body_steady {α : Type} (op : Operation α) :
    Steady s (op.given s) (op.body perform) op.gives := by
  cases op with
  | coerce t v =>
    cases t with
    | builtin b => exact coerceBuiltin_steady (stored_steady h) b v
    | model t => exact coerceUnder_steady h t v
    | adapter a => exact .pure fun _ hv => hv
  | wrap t v =>
    cases t with
    | builtin b => exact coerceBuiltin_steady (stored_steady h) b v
    | model t => exact wrapUnder_steady h t v
    | adapter a =>
      refine .schema ?_
      split
      · rename_i adapter ha
        refine .kept s.heldValues ((runHook_steady h .adapter adapter.wrap v).mono fun w hw => ?_)
          fun w hw => Schema.used_of_adapter? ha hw
        have held : ∀ w ∈ Hook.heldValues adapter.wrap, w ∈ s.heldValues := fun w hw =>
          Schema.held_of_adapter? ha hw
        grind [Operation.given, Scene.heldValues, Scene.adapter]
      · exact .pure fun _ hv => hv
  | create t data => exact construct_steady h t data
  | get m p => exact readProperty_steady h m p
  | set m p v => exact writeProperty_steady h m p v
  | call m name arguments => exact callMethod_steady h m name arguments

end Bodies

/-- Every operation takes steps of the heap only, hooks or not and however deep operations nest. -/
theorem perform_steady (s : Schema) (depth : Nat) {α : Type} (op : Operation α) :
    Steady s (op.given s) (Engine.perform depth op) op.gives := by
  induction depth generalizing α with
  | zero => exact .exhausted
  | succ depth ih => exact body_steady (fun op => ih op) op

/-- **No run leaves a dangling reference**, hooks or not and whether it succeeds or fails, and its
result is there. -/
theorem run_sound {α : Type} (op : Operation α) {c : Context} {st : State}
    (sound : st.heap.Sound (op.given c.schema ++ (c.held ++ c.schema.heldValues))) :
    (op.run c st).2.heap.Sound (c.held ++ c.schema.heldValues) ∧
      ∀ a, (op.run c st).1 = .ok a → ∀ v ∈ op.gives a, (op.run c st).2.heap.Holds v := by
  obtain ⟨steps, there⟩ :=
    (perform_steady c.schema (c.schema.budget op.weight) op).steps True c st rfl fun _ => sound
  refine ⟨(sound.steps steps trivial).mono fun v hv => List.mem_append_right _ hv, ?_⟩
  exact fun a ha v hv => there a ha v hv trivial

end Engine

end Overlay
