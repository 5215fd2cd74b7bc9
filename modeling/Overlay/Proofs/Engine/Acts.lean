import Overlay.Engine.Calls
import Overlay.Interchange.Values
import Overlay.Proofs.Engine.Sound
import Overlay.Proofs.Heap.Attached

/-!
# What a program does

A `Command` makes, wraps, writes, reads or cleans a model, and an `Engine.Act` is a command or one
of the other things that a program does with types, models and data.  Between two acts it may build
data of its own: this is `Engine.Acts`.  `Engine.Lives` says what a program may have at hand after
it has made some types and done some acts, in any order.

* `Engine.Act.steady` : every act is steady, hooks or not;
* `Engine.InOrder.acts` : what acts keep, whatever they are;
* `Engine.Lives.inOrder` : what holds of all that a program has at hand.
-/

namespace Overlay

/-! ### What a program does -/

/-- What a program can ask for. -/
inductive Command
  /-- A new model around data. -/
  | create (t : TypeId) (data : Option Value)
  /-- The wrapped form of a value. -/
  | wrap (t : DataType) (v : Value)
  /-- Writing the property of this name or storage key. -/
  | set (m : ModelId) (name : String) (v : Value)
  /-- Its value. -/
  | get (m : ModelId) (name : String)
  /-- A snapshot of a model, with the keys that are not recognised if there is a list for them. -/
  | clean (m : ModelId) (diagnostics : Option (List Diagnostic))

namespace Command

/-- Does what is asked for. -/
def run : Command → Engine Value
  | create t data => do return .model (← Engine.create t data)
  | wrap t v => Engine.wrap t v
  | set m name v => do
    Engine.set m name v
    return .undefined
  | get m name => Engine.get m name
  | clean m diagnostics => fun c st =>
    let (v, snapped) := Snapshot.take c.schema (c.held ++ c.schema.heldValues) st.heap diagnostics
      (.model m)
    (.ok v, { st with heap := snapped.heap })

/-- The values handed in. -/
def handed : Command → List Value
  | create _ data => data.toList
  | wrap _ v => [v]
  | set _ _ v => [v]
  | get _ _ => []
  | clean _ _ => []

/-- The model acted on. -/
def target? : Command → Option ModelId
  | set m _ _ => some m
  | get m _ => some m
  | clean m _ => some m
  | _ => none

end Command

namespace Engine

variable {s : Schema}

/-- Something that a program does. -/
inductive Act
  /-- A command. -/
  | ask (command : Command)
  /-- Asking for the model that wraps a value. -/
  | wrapModel (t : TypeId) (v : Value)
  /-- Calling an accessor or a method. -/
  | call (m : ModelId) (name : String) (arguments : List Value)
  /-- A snapshot of any value, with the keys that are not recognised if there is a list for them. -/
  | copy (v : Value) (diagnostics : Option (List Diagnostic))
  /-- Writing a value as JSON, on one line or indented. -/
  | stringify (v : Value) (pretty : Bool)

namespace Act

/-- Does it.  Writing a value as JSON changes nothing. -/
def run : Act → Engine Value
  | ask command => command.run
  | wrapModel t v => do return .model (← modelOf t v)
  | call m name arguments => Engine.call m name arguments
  | copy v diagnostics => fun c st =>
    let (v, snapped) := Snapshot.take c.schema (v :: (c.held ++ c.schema.heldValues)) st.heap
      diagnostics v
    (.ok v, { st with heap := snapped.heap })
  | stringify v pretty => fun c st =>
    (.ok (.string (Interchange.textOf c.schema (v :: (c.held ++ c.schema.heldValues)) st.heap pretty
      v)), st)

/-- The value acted on. -/
def target? : Act → Option Value
  | ask command => command.target?.map .model
  | wrapModel _ _ => none
  | call m _ _ => some (.model m)
  | copy v _ => some v
  | stringify v _ => some v

/-- The values handed in. -/
def handed : Act → List Value
  | ask command => command.handed
  | wrapModel _ v => [v]
  | call _ _ arguments => arguments
  | copy _ _ => []
  | stringify _ _ => []

/-- The values that it is about. -/
def uses (a : Act) : List Value := a.target?.toList ++ a.handed

/-- What it may use besides: a method may use whatever the types keep. -/
def keeps (s : Schema) : Act → List Value
  | call _ _ _ => s.heldValues
  | _ => []

end Act

/-! ### Acts are steady -/

theorem run_steady {α : Type} (op : Operation α) : Steady s (op.given s) op.run op.gives :=
  fun G c st hc => by
    subst hc
    exact perform_steady c.schema (c.schema.budget op.weight) op G c st rfl

theorem modelOf_steady (t : TypeId) (v : Value) :
    Steady s [v] (modelOf t v) fun m => [.model m] := by
  refine .apart (.bind (run_steady (.wrap (.model t) v)) fun w => ?_)
  split
  · exact .pure (by simp [Operation.gives])
  · exact .look fun _ => .raise _

theorem copy_steady (v : Value) (diagnostics : Option (List Diagnostic)) :
    Steady s [v] (Act.copy v diagnostics).run ([·]) := by
  intro G c st hc sound
  subst hc
  have sound : G.Sound [v] (c.held ++ c.schema.heldValues) st.heap :=
    sound.mono (by simp +contextual)
  have start : G.Sound [v] ([v] ++ (c.held ++ c.schema.heldValues)) st.heap :=
    ⟨sound.ok, sound.there, G.uses sound.there sound.uses⟩
  obtain ⟨keeps, there⟩ := Snapshot.take_copies G c.schema diagnostics start
  refine ⟨keeps, fun a ha w hw => ?_⟩
  cases ha
  rw [List.mem_singleton.1 hw]
  exact there

theorem command_steady (command : Command) :
    Steady s ((command.target?.map Value.model).toList ++ command.handed) command.run ([·]) := by
  cases command with
  | create t data =>
    exact .bind ((run_steady (.create t data)).mono (by
      simp +contextual [Command.handed, Operation.given]))
      fun m => .pure (by simp [Operation.gives])
  | wrap t v =>
    exact (run_steady (.wrap t v)).mono (by simp [Command.handed, Operation.given])
  | set m name v =>
    have write : Steady s [.model m, v] (Engine.set m name v) fun _ => [] := by
      refine .bind (.property m name) fun p => (run_steady (.set m p v)).mono ?_
      simp +contextual [Operation.given]
    exact .bind write fun _ => .scalar fun _ => trivial
  | get m name =>
    refine .bind (.property m name) fun p => (run_steady (.get m p)).mono ?_
    simp +contextual [Command.target?, Operation.given]
  | clean m diagnostics =>
    intro G c st hc sound
    subst hc
    have start : G.Sound [.model m] (c.held ++ c.schema.heldValues) st.heap :=
      sound.mono (by simp +contextual [Command.target?])
    obtain ⟨keeps, there⟩ := Snapshot.take_copies G c.schema diagnostics start
    refine ⟨keeps, fun a ha w hw => ?_⟩
    cases ha
    rw [List.mem_singleton.1 hw]
    exact there

/-- Every act is steady. -/
theorem Act.steady (a : Act) : Steady s (a.uses ++ a.keeps s) a.run ([·]) := by
  cases a with
  | ask command => exact (command_steady command).mono fun v hv => List.mem_append_left _ hv
  | wrapModel t v =>
    exact .bind ((modelOf_steady t v).mono (by simp [uses, target?, handed])) fun m =>
      .pure (by simp)
  | call m name arguments =>
    exact (run_steady (.call m name arguments)).mono (by
      simp +contextual [uses, target?, handed, keeps, Operation.given])
  | copy v diagnostics =>
    exact (copy_steady v diagnostics).mono (by simp [uses, target?])
  | stringify v pretty =>
    intro G c st hc sound
    refine ⟨.refl sound.ok, fun w hw u hu => ?_⟩
    cases hw
    rw [List.mem_singleton.1 hu]
    exact (G.inside sound.ok).scalar fun _ => trivial

/-! ### One act after another -/

/-- What a program does next: an act that it may do, with values that are there, or anything to its
own data that attaches and detaches no models. -/
inductive Acts (s : Schema) (may : Context → Heap → Act → Prop) : Heap → Heap → Prop
  /-- It does something with types, models and data, with any options. -/
  | act {a : Act} {c : Context} {st : State} (types : c.schema = s)
      (there : ∀ v ∈ a.uses ++ (c.held ++ s.heldValues), st.heap.Holds v)
      (allowed : may c st.heap a) : Acts s may st.heap (a.run c st).2.heap
  /-- It builds data. -/
  | build {h h' : Heap} (grows : h.Grows h') (attached : ∀ r, h'.attached? r = h.attached? r)
      (closed : h.Closed → h'.Closed) : Acts s may h h'

/-- Whatever is done, the models that were there are the same models. -/
theorem Acts.grows {may : Context → Heap → Act → Prop} {h h' : Heap} (acts : Acts s may h h') :
    h.Grows h' := by
  cases acts with
  | @act a c st types => exact (a.steady.steps False c st types False.elim).1.grows
  | build grows => exact grows

/-- What a program has at hand: the types that it has made, none of which brings hooks, and the
heap.  It starts with the root alone and nothing in the heap. -/
inductive Lives : Schema → Heap → Prop
  /-- Nothing has happened. -/
  | start : Lives .initial .empty
  /-- It does something. -/
  | act {s : Schema} {h h' : Heap} (before : Lives s h) (act : Acts s (fun _ _ _ => True) h h') :
      Lives s h'
  /-- It derives a type. -/
  | derive {s s' : Schema} {h : Heap} {base t : TypeId} {ext : Extension} {scope : Scope}
      {ps : List Property} (before : Lives s h) (known : base.index < s.models.size)
      (free : ext.HookFree) (declared : declareAll scope ext.properties = .ok ps)
      (plain : ∀ p ∈ ps, p.PlainBelow s.models.size)
      (result : s.derive base ext scope = .ok (t, s')) : Lives s' h
  /-- It makes an enumeration of values that are there. -/
  | enumerate {s s' : Schema} {h h' : Heap} {spec : Enumeration.Spec} {e : Enumeration}
      (before : Lives s h) (there : ∀ e ∈ spec.values, h.Holds e.2)
      (result : Enumeration.define spec s h = .ok (e, s', h')) : Lives s' h'

/-- The constants of the enumerations are there, as instances of their types, which have no
properties. -/
def Furnished (s : Schema) (h : Heap) : Prop :=
  ∀ t cs, (s.type t).wrap = .custom (.constants cs) → (s.type t).isStructured = false ∧
    ∀ c ∈ cs.all, h.Holds (.model c.model) ∧ h.type c.model = t

theorem Furnished.grows {h h' : Heap} (furnished : Furnished s h) (grows : h.Grows h') :
    Furnished s h' := by
  intro t cs hw
  refine ⟨(furnished t cs hw).1, fun c hc => ?_⟩
  obtain ⟨there, type⟩ := (furnished t cs hw).2 c hc
  exact ⟨there.grows grows, (grows.type_eq there).trans type⟩

/-- What holds of all that a program has at hand. -/
structure InOrder (s : Schema) (h : Heap) : Prop where
  /-- Whatever a cell holds is there. -/
  closed : h.Closed
  /-- Models are attached only to the records that they wrap. -/
  tied : h.Tied s
  /-- The enumerations have their constants. -/
  furnished : Furnished s h

namespace InOrder

variable {h h' : Heap}

theorem steps (order : InOrder s h) (steps : h.Steps s True h') : InOrder s h' where
  closed := steps.closed trivial order.closed
  tied := steps.tied order.tied
  furnished := order.furnished.grows steps.grows

/-- Whatever an act is, it leaves all in order. -/
theorem acts {may : Context → Heap → Act → Prop} (order : InOrder s h) (acts : Acts s may h h') :
    InOrder s h' := by
  cases acts with
  | @act a c st types there allowed =>
    refine order.steps (a.steady.steps True c st types fun _ => ⟨order.closed, fun v hv => ?_⟩).1
    have kept : ∀ v ∈ a.keeps s, v ∈ s.heldValues := by
      cases a <;> simp [Act.keeps]
    have := there v
    simp only [List.mem_append] at this hv
    grind
  | build grows attached closed =>
    refine ⟨closed order.closed, fun r m hm => ?_, order.furnished.grows grows⟩
    exact order.tied.grows grows (fun hm => attached r ▸ hm) hm

theorem addModel {new : ModelType} (order : InOrder s h)
    (constants : ∀ cs, new.wrap = .custom (.constants cs) → new.isStructured = false ∧
      ∀ c ∈ cs.all, h.Holds (.model c.model) ∧ h.type c.model = s.nextModel) :
    InOrder (s.addModel new).2 h := by
  refine ⟨order.closed, fun r m hm => ?_, fun t cs hw => ?_⟩
  · obtain ⟨there, data, structured⟩ := order.tied r m hm
    refine ⟨there, data, ?_⟩
    -- at the place of the new type there was a root, which has no properties
    have old : (h.type m).index ≠ s.models.size := fun e => by
      rw [Schema.type_of_size_le (Nat.le_of_eq e.symm)] at structured
      cases structured
    rw [Schema.type_addModel, if_neg old]
    exact structured
  · rw [Schema.type_addModel] at hw ⊢
    split at hw
    · rename_i ht
      rw [if_pos ht]
      obtain ⟨plain, made⟩ := constants cs hw
      refine ⟨plain, fun c hc => ⟨(made c hc).1, (made c hc).2.trans ?_⟩⟩
      cases t
      exact congrArg TypeId.mk ht.symm
    · rename_i ht
      rw [if_neg ht]
      exact order.furnished t cs hw

end InOrder

/-! ### All that a program has at hand -/

theorem addInstances_steps (safe : Prop) {t : TypeId} (plain : (s.type t).isStructured = false)
    (values : List (String × Value)) {h : Heap} (there : ∀ e ∈ values, safe → h.Holds e.2) :
    h.Steps s safe (Enumeration.addInstances t values h).2 ∧
      ∀ c ∈ (Enumeration.addInstances t values h).1,
        (Enumeration.addInstances t values h).2.Holds (.model c.model) ∧
          (Enumeration.addInstances t values h).2.type c.model = t := by
  induction values generalizing h with
  | nil => exact ⟨.refl, fun c hc => absurd hc List.not_mem_nil⟩
  | cons e values ih =>
    obtain ⟨name, v⟩ := e
    have added : Heap.Step s safe h (h.addModel t v).2 :=
      .addModel t (there (name, v) List.mem_cons_self) fun hstr => by
        rw [plain] at hstr
        cases hstr
    obtain ⟨steps, made⟩ := ih (h := (h.addModel t v).2) fun e he hs =>
      (there e (List.mem_cons_of_mem _ he) hs).grows added.grows
    refine ⟨.head added steps, fun c hc => ?_⟩
    have new : (h.addModel t v).2.Holds (.model (h.addModel t v).1) := h.index_addModel_lt t v
    rcases List.mem_cons.1 hc with rfl | hc
    · exact ⟨new.grows steps.grows, (steps.grows.type_eq new).trans (h.type_addModel t v)⟩
    · exact made c hc

namespace Lives

variable {h : Heap}

/-- A program derives a type with declarations that use no names. -/
theorem extend (lives : Lives s h) (base : TypeId) (ext : Extension) {ps : List Property}
    (known : base.index < s.models.size) (free : ext.HookFree)
    (declared : declareAll .none ext.properties = .ok ps)
    (plain : ∀ p ∈ ps, p.PlainBelow s.models.size) :
    Lives (s.addModel (.extended base (s.type base) ext ps)).2 h := by
  have result : s.derive base ext .none =
      .ok (s.addModel (.extended base (s.type base) ext ps)) := by
    simp only [Schema.derive, declared, bind, Except.bind, pure, Except.pure]
  exact lives.derive known free declared plain result

/-- A program does something with what it has at hand. -/
theorem does (lives : Lives s h) (a : Act) {held : List Value} {options : Options}
    (there : ∀ v ∈ a.uses ++ (held ++ s.heldValues), h.Holds v)
    {result : Except Fault Value × State} (run : a.run ⟨s, held⟩ ⟨h, options, []⟩ = result) :
    Lives s result.2.heap :=
  run ▸ lives.act (@Acts.act s _ a ⟨s, held⟩ ⟨h, options, []⟩ rfl there trivial)

/-- It writes a record. -/
theorem writes (lives : Lives s h) (f : Fields) (closed : (h.addRecord f).2.Closed) :
    Lives s (h.addRecord f).2 :=
  lives.act (.build (h.extends_addRecord f).grows (h.attached?_addRecord f) fun _ => closed)

theorem built (lives : Lives s h) : s.Built := by
  induction lives with
  | start => exact .initial
  | act _ _ ih => exact ih
  | derive _ known free declared plain result ih => exact ih.derive known free declared plain result
  | enumerate _ _ result ih => exact ih.enumerate result

/-- All is in order. -/
theorem inOrder (lives : Lives s h) : InOrder s h := by
  induction lives with
  | start =>
    refine ⟨Heap.closed_of_cells (fun _ hv => nomatch hv), (fun _ _ hm => nomatch hm),
      fun t cs hw => ?_⟩
    rw [Schema.type_root] at hw
    cases hw
  | act _ act ih => exact ih.acts act
  | @derive s s' h base t ext scope ps _ known free declared plain result ih =>
    rw [Schema.derive_schema declared result]
    exact ih.addModel fun cs hw => absurd hw (free.wrap _)
  | @enumerate s s' h h' spec e before there result ih =>
    have place : (s.type s.nextModel).isStructured = false := by
      rw [Schema.type_of_size_le (t := s.nextModel) (Nat.le_refl _)]
      rfl
    obtain ⟨steps, made⟩ := addInstances_steps True place spec.values fun e he _ => there e he
    obtain ⟨-, rfl, rfl, rfl⟩ := Enumeration.define_ok result
    refine (ih.steps steps).addModel fun cs hw => ?_
    cases hw
    refine ⟨?_, made⟩
    show (s.type .root).isStructured = false
    rw [before.built.root]
    rfl

end Lives

end Engine

end Overlay
