import Overlay.Proofs.Engine.Orderly

/-!
# Invalid values and whose they are

The property at hand is part of the options: an operation puts a property there for as long as it
deals with a value of it, and reports invalid values on behalf of whatever is there.  Whose value it
really deals with is not to be seen in a run.  So the operations that report something are written
once more here, with the property whose value is at hand as an argument in place of the one in the
options, and so that they tell of each report: whose value it was, and what was at hand.

* `Engine.Traced` : a computation that tells of its reports, and `Engine.Traced.perform` the
  operations;
* `Engine.Told` : what such a computation has to do with the run of the same operation;
* `Engine.Traces` : the two agree wherever they start with the same property, and this is kept by
  doing one thing after another, by dealing with another property and by holding values.
-/

namespace Overlay

/-- The report of an invalid value. -/
structure Report where
  /-- The property whose value was coerced or wrapped. -/
  owner : Option Property
  /-- The property at hand. -/
  atHand : Option Property
  /-- The value. -/
  value : Value
  /-- Its text at that moment. -/
  text : String
  deriving DecidableEq

/-- The error that says so on behalf of the owner. -/
def Report.error (r : Report) : Error := .invalidValue (r.owner.map (·.name)) r.text

/-- The invalid value that a diagnostic tells of. -/
def Diagnostic.invalid? : Diagnostic → Option Error
  | .recorded (.invalidValue property value) => some (.invalidValue property value)
  | _ => none

/-- The invalid value that a run was stopped by. -/
def Fault.invalid? : Fault → Option Error
  | .error (.invalidValue property value) => some (.invalidValue property value)
  | _ => none

namespace Engine

variable {α β : Type}

/-- A computation that also tells of the invalid values that it reports, in order. -/
def Traced (α : Type) : Type := Context → State → (Except Fault α × State) × List Report

namespace Traced

instance : Monad Traced where
  pure a := fun _ st => ((.ok a, st), [])
  bind act next := fun c st =>
    match act c st with
    | ((.ok a, st), reports) => ((next a c st).1, reports ++ (next a c st).2)
    | ((.error fault, st), reports) => ((.error fault, st), reports)

section Bind

variable {act : Traced α} {next : α → Traced β} {c : Context} {st st' : State} {reports : List Report}

theorem bind_run : (act >>= next) c st =
    match act c st with
    | ((.ok a, st), reports) => ((next a c st).1, reports ++ (next a c st).2)
    | ((.error fault, st), reports) => ((.error fault, st), reports) := rfl

theorem bind_ok {a : α} (h : act c st = ((.ok a, st'), reports)) :
    (act >>= next) c st = ((next a c st').1, reports ++ (next a c st').2) := by
  rw [bind_run, h]

theorem bind_error {fault : Fault} (h : act c st = ((.error fault, st'), reports)) :
    (act >>= next) c st = ((.error fault, st'), reports) := by
  rw [bind_run, h]

end Bind

/-- Does something of which there is nothing to tell. -/
def quiet (act : Engine α) : Traced α := fun c st => (act c st, [])

/-- Runs while more values are in use. -/
def holding (vs : List Value) (act : Traced α) : Traced α := fun c st =>
  act { c with held := vs ++ c.held } st

/-- Runs with a property at hand, and has the one before at hand again afterwards. -/
def concerning (p : Property) (act : Traced α) : Traced α := fun c st =>
  match act c { st with options := { st.options with property := some p } } with
  | ((result, after), reports) =>
    ((result, { after with options := { after.options with property := st.options.property } }),
      reports)

/-- Signals that a value of this property is invalid. -/
def invalid (owner : Option Property) (v : Value) : Traced Value := fun c st =>
  (Engine.invalid v c st, [⟨owner, st.options.property, v, st.heap.text v⟩])

/-! ### Coercion -/

/-- Coercion to a type whose values have no parts. -/
def coerceScalar (owner : Option Property) (b : Builtin) (v : Value) : Traced Value := do
  if v.isNothing || b.accepts v then return v
  else if (← quiet options).strict then invalid owner v
  else
    match b.converted? v with
    | some w => return w
    | none => invalid owner v

/-- Coercion to a number without a fraction. -/
def coerceInteger (owner : Option Property) (v : Value) : Traced Value := do
  let w ← coerceScalar owner .number v
  match w with
  | .number x => if x.isIntegral then return w else invalid owner v
  | _ => return w

/-- Replaces elements from an index on, one after the other. -/
def replaceItems (action : Value → Traced Value) (a : ArrayId) : Nat → Nat → Traced Unit
  | _, 0 => pure ()
  | i, count + 1 => do
    let v ← action ((← quiet heap).item a i)
    quiet (changeHeap (·.setItem a i v))
    replaceItems action a (i + 1) count

/-- Coercion to an array; the elements are values of the element property. -/
def coerceArray (stored : Property → Value → Traced Value) (owner : Option Property) (v : Value) :
    Traced Value := do
  match v with
  | .undefined | .null => return v
  | .array a =>
    match owner.bind (·.elementProperty?) with
    | none => return v
    | some p =>
      let count := ((← quiet heap).items a).length
      holding [v] (replaceItems (stored p) a 0 count)
      return v
  | _ => invalid owner v

/-- Coercion to a built-in type. -/
def coerceBuiltin (stored : Property → Value → Traced Value) (owner : Option Property) :
    Builtin → Value → Traced Value
  | .integer => coerceInteger owner
  | .object => fun v => return v
  | .array => coerceArray stored owner
  | b => coerceScalar owner b

/-- The constant that a value denotes, in a form of its own. -/
def denote (form : Heap → Constant → Value) (cs : Constants) (owner : Option Property) (t : TypeId)
    (v : Value) : Traced Value := do
  if v.isNothing then return v
  else
    let h ← quiet heap
    match cs.denoted? (← quiet schema) h t v with
    | some c => return form h c
    | none => invalid owner v

/-- What the rule of an enumeration makes of a value; other rules are not followed. -/
def runRule (form : Heap → Constant → Value) (owner : Option Property) (t : TypeId) (v : Value) :
    Rule → Traced Value
  | .hook _ => quiet exhausted
  | .constants cs => denote form cs owner t v

/-- Coercion by a model type. -/
def coerceUnder (owner : Option Property) (t : TypeId) (v : Value) : Traced Value := do
  match ((← quiet schema).type t).coerce with
  | some rule => runRule (fun h c => h.data c.model) owner t v rule
  | none => return v

/-! ### Writing -/

/-- How an operation on a value of a property has another one done. -/
abbrev Performs : Type 1 := ∀ {α : Type}, Option Property → Operation α → Traced α

/-- Makes a value one of the declared type. -/
def adapt (perform : Performs) (p : Property) (v : Value) : Traced Value := do
  match v with
  | .model m =>
    let h ← quiet heap
    let s ← quiet schema
    if s.fits (.model (h.type m)) p.type then return h.data m
    else perform (some p) (.coerce p.type v)
  | _ => perform (some p) (.coerce p.type v)

/-- Tries to wrap a value by the declared type and gives the raw form. -/
def settle (perform : Performs) (p : Property) (v : Value) : Traced Value := do
  if v.isNothing || !(← quiet schema).wraps p.type then return v
  else
    let wrapped ← holding [v] (perform (some p) (.wrap p.type v))
    if wrapped.isUndefined then return .undefined else return (← quiet heap).unwrap v

/-- The stored form of a value. -/
def stored (perform : Performs) (p : Property) (v : Value) : Traced Value :=
  concerning p do
    let v ← adapt perform p v
    settle perform p v

/-- Writes a property; setters are not followed. -/
def writeProperty (perform : Performs) (m : ModelId) (p : Property) (v : Value) : Traced Unit :=
  holding [.model m] do
    let v ← concerning p (adapt perform p v)
    match p.setter with
    | some _ => quiet exhausted
    | none =>
      let v ← concerning p (settle perform p v)
      match (← quiet heap).record? m with
      | some r => quiet (changeHeap (·.insert r p.storageKey v))
      | none => return ()

/-! ### Constructing and wrapping -/

/-- The record that a new model under a type with properties wraps. -/
def recordFor (owner : Option Property) (data : Option Value) : Traced RecordId := do
  match data.getD .undefined with
  | .record r => return r
  | .undefined | .null => quiet (allocate (·.addRecord .empty))
  | v =>
    let _ ← invalid owner v
    quiet (allocate (·.addRecord .empty))

/-- Puts one entry of the record through the property that its key names. -/
def admitEntry (perform : Performs) (owner : Option Property) (m : ModelId) (type : ModelType)
    (key : String) (v : Value) : Traced Unit := do
  if isReserved key then return ()
  else
    match type.property? key with
    | some p => perform owner (.set m p v)
    | none =>
      if type.allowsAdditional then return ()
      else
        let _ ← quiet (signal (.unrecognizedKey key))

/-- Puts entries through their properties in order. -/
def admitEntries (perform : Performs) (owner : Option Property) (m : ModelId) (type : ModelType) :
    List (String × Value) → Traced Unit
  | [] => return ()
  | (key, v) :: rest => do
    holding (.model m :: rest.map Prod.snd) (admitEntry perform owner m type key v)
    admitEntries perform owner m type rest

/-- A new instance must have the raw value of a constant. -/
def checkConstant (cs : Constants) (owner : Option Property) (m : ModelId) : Traced Unit := do
  let h ← quiet heap
  if (cs.ofModel? h m).isNone then
    let _ ← invalid owner (h.data m)

/-- Runs the initialisation of a new model by the rules of enumerations; others are not followed. -/
def runInit (owner : Option Property) (m : ModelId) : List Rule → Traced Unit
  | [] => return ()
  | rule :: rest => do
    match rule with
    | .hook _ => quiet exhausted
    | .constants cs => checkConstant cs owner m
    runInit owner m rest

/-- A new model around data. -/
def construct (perform : Performs) (owner : Option Property) (t : TypeId) (data : Option Value) :
    Traced ModelId := do
  let type := (← quiet schema).type t
  if !type.allowsInstances then quiet (raise (.noInstances type.name))
  else
    let m ← if type.isStructured then do
        let r ← recordFor owner data
        let m ← quiet (allocate (·.addModel t (.record r)))
        admitEntries perform owner m type ((← quiet heap).fields r).entries
        quiet (changeHeap (·.setWrapper r (some m)))
        pure m
      else quiet (allocate (·.addModel t (data.getD .undefined)))
    runInit owner m ((← quiet schema).initRules t)
    return m

/-- Wraps raw data: by the model attached to the record, or by a new one. -/
def wrapData (perform : Performs) (owner : Option Property) (t : TypeId) (v : Value) :
    Traced Value := do
  let type := (← quiet schema).type t
  if type.wrap == .disabled then return v
  else if v.isArray then quiet (raise .wrappedArray)
  else if type.isStructured && !v.isRecord then invalid owner v
  else
    let existing ← match v with
      | .record r => holding [v] (quiet (wrapper? r))
      | _ => pure none
    match existing with
    | some m => return .model m
    | none => return .model (← perform owner (.create t (some v)))

/-- Wraps a value: instances of the type are wrapped already, other models are taken apart. -/
def wrapStandard (perform : Performs) (owner : Option Property) (t : TypeId) (v : Value) :
    Traced Value := do
  match ← quiet (instance? t v) with
  | some m => return .model m
  | none =>
    let v ← coerceUnder owner t v
    if v.isNothing then return v
    else
      match ← quiet (instance? t v) with
      | some m => return .model m
      | none =>
        let v ← match v with
          | .model m => quiet (release m)
          | _ => pure v
        wrapData perform owner t v

/-- Wrapping by a model type. -/
def wrapUnder (perform : Performs) (owner : Option Property) (t : TypeId) (v : Value) :
    Traced Value := do
  match ((← quiet schema).type t).wrap with
  | .custom rule => runRule (fun _ c => .model c.model) owner t v rule
  | _ => wrapStandard perform owner t v

/-! ### The operations -/

/-- Coercion by any type. -/
def coerceBy (perform : Performs) (owner : Option Property) (t : DataType) (v : Value) :
    Traced Value :=
  match t with
  | .builtin b => coerceBuiltin (stored perform) owner b v
  | .model t => coerceUnder owner t v
  | .adapter _ => return v

/-- Wrapping by any type; adapters are not followed. -/
def wrapBy (perform : Performs) (owner : Option Property) (t : DataType) (v : Value) :
    Traced Value := do
  match t with
  | .builtin b => coerceBuiltin (stored perform) owner b v
  | .model t => wrapUnder perform owner t v
  | .adapter a =>
    match (← quiet schema).adapter? a with
    | some _ => quiet exhausted
    | none => return v

/-- Has operations done without telling of it. -/
def untold (perform : Performs) : Perform := fun op c st => (perform none op c st).1

/-- What an operation does on a value of a property.  Reading and calling have options of their own,
so they report nothing to these. -/
def body (perform : Performs) (owner : Option Property) : Operation α → Traced α
  | .coerce t v => coerceBy perform owner t v
  | .wrap t v => wrapBy perform owner t v
  | .create t data => construct perform owner t data
  | .set m p v => writeProperty perform m p v
  | op => quiet (op.body (untold perform))

/-- Does an operation that nests others at most this deep. -/
def perform : Nat → Performs
  | 0, _, _, _ => quiet exhausted
  | depth + 1, _, owner, op => body (perform depth) owner op

end Traced

/-! ### What a run tells -/

/-- The invalid values that a run added to the diagnostics or was stopped by. -/
def complaints (result : Except Fault α) (added : List Diagnostic) : List Error :=
  added.filterMap Diagnostic.invalid? ++
    match result with
    | .ok _ => []
    | .error fault => fault.invalid?.toList

theorem complaints_append (a : α) (result : Except Fault β) (added added' : List Diagnostic) :
    complaints result (added ++ added') =
      complaints (.ok a : Except Fault α) added ++ complaints result added' := by
  simp only [complaints, List.filterMap_append, List.append_nil, List.append_assoc]

/-- What the reports of a run have to do with how it ends and what it leaves of the options. -/
structure Told (before : Options) (run : Except Fault α × State)
    (reports : List Report) : Prop where
  /-- The options go on from where they were. -/
  continues : before.Continue run.2.options
  /-- At each report the property whose value it was is the one at hand. -/
  owned : ∀ r ∈ reports, r.atHand = r.owner
  /-- No invalid value goes without a report, nor is any reported on behalf of another property. -/
  complete : ∃ added,
    run.2.options.diagnostics.getD [] = before.diagnostics.getD [] ++ added ∧
      complaints run.1 added = reports.map Report.error

/-- The second computation does what the first one does, and tells of all its reports, where the
property at hand is this one. -/
def Traces (s : Schema) (p : Option Property) (act : Engine α) (traced : Traced α) : Prop :=
  ∀ c st, c.schema = s → st.options.property = p →
    (traced c st).1 = act c st ∧ Told st.options (act c st) (traced c st).2

/-- A computation that leaves the options alone and signals nothing. -/
def Mute (act : Engine α) : Prop :=
  ∀ c st, (act c st).2.options = st.options ∧
    ∀ fault, (act c st).1 = .error fault → fault.invalid? = none

namespace Mute

theorem pure (a : α) : Mute (pure a : Engine α) := fun _ _ => ⟨rfl, nofun⟩

theorem bind {act : Engine α} {next : α → Engine β} (first : Mute act) (rest : ∀ a, Mute (next a)) :
    Mute (act >>= next) := fun c st => by
  obtain ⟨same, mute⟩ := first c st
  rw [bind_run]
  split
  · rename_i a st' h
    obtain ⟨same', mute'⟩ := rest a c st'
    rw [h] at same
    exact ⟨same'.trans same, mute'⟩
  · rename_i fault st' h
    rw [h] at same mute
    exact ⟨same, fun f e => mute f (by cases e; rfl)⟩

theorem heap : Mute heap := fun _ _ => ⟨rfl, nofun⟩

theorem schema : Mute schema := fun _ _ => ⟨rfl, nofun⟩

theorem roots : Mute roots := fun _ _ => ⟨rfl, nofun⟩

theorem changeHeap (f : Heap → Heap) : Mute (changeHeap f) := fun _ _ => ⟨rfl, nofun⟩

theorem allocate (f : Heap → α × Heap) : Mute (allocate f) := fun _ _ => ⟨rfl, nofun⟩

theorem raise {e : Error} (he : e.isRecordable = false) : Mute (raise e : Engine α) :=
  fun _ _ => ⟨rfl, fun fault h => by cases h; cases e <;> first | rfl | cases he⟩

theorem exhausted : Mute (exhausted : Engine α) :=
  fun _ _ => ⟨rfl, fun fault h => by cases h; rfl⟩

theorem wrapper? (r : RecordId) : Mute (wrapper? r) := by
  refine heap.bind fun h => ?_
  split
  · exact pure _
  · exact roots.bind fun _ => pure _

theorem instance? (t : TypeId) (v : Value) : Mute (instance? t v) := by
  unfold Engine.instance? isInstance
  split
  · refine (schema.bind fun s => heap.bind fun h => pure _).bind fun b => ?_
    split <;> exact pure _
  · exact pure _

theorem release (m : ModelId) : Mute (release m) := by
  refine heap.bind fun h => ?_
  dsimp only
  split
  · exact (changeHeap _).bind fun _ => pure _
  · exact pure _

end Mute

namespace Traces

variable {s : Schema} {p : Option Property} {act : Engine α} {traced : Traced α}

theorem quiet (mute : Mute act) : Traces s p act (.quiet act) := fun c st _ _ => by
  obtain ⟨same, mute⟩ := mute c st
  refine ⟨rfl, ?_, fun _ h => absurd h List.not_mem_nil, [], ?_, ?_⟩
  · rw [same]
    exact .refl _
  · rw [same, List.append_nil]
  · cases h : (act c st).1 with
    | ok a => rfl
    | error fault => simp [complaints, mute fault h]; rfl

theorem pure (a : α) : Traces s p (pure a : Engine α) (pure a) := quiet (.pure a)

theorem bind {next : α → Engine β} {traced' : α → Traced β} (first : Traces s p act traced)
    (rest : ∀ a, Traces s p (next a) (traced' a)) :
    Traces s p (act >>= next) (traced >>= traced') := fun c st hc hp => by
  obtain ⟨same, told⟩ := first c st hc hp
  rcases ht : traced c st with ⟨⟨result, st'⟩, reports⟩
  have hr : act c st = (result, st') := by rw [← same, ht]
  rw [hr, ht] at told
  cases result with
  | error fault =>
    rw [Traced.bind_error ht, bind_run, hr]
    exact ⟨rfl, told.continues, told.owned, told.complete⟩
  | ok a =>
    obtain ⟨same', told'⟩ := rest a c st' hc (told.continues.property.trans hp)
    obtain ⟨added, diagnostics, complete⟩ := told.complete
    obtain ⟨added', diagnostics', complete'⟩ := told'.complete
    rw [Traced.bind_ok ht, bind_run, hr]
    refine ⟨same', told.continues.trans told'.continues, ?_, added ++ added', ?_, ?_⟩
    · intro r hr
      exact (List.mem_append.1 hr).elim (told.owned r) (told'.owned r)
    · rw [diagnostics', diagnostics, List.append_assoc]
    · rw [List.map_append, ← complete, ← complete', complaints_append]

/-- Looking at the options shows which property is at hand. -/
theorem options {next : Options → Engine α} {traced : Options → Traced α}
    (rest : ∀ o, o.property = p → Traces s p (next o) (traced o)) :
    Traces s p (options >>= next) (.quiet options >>= traced) := fun c st hc hp =>
  rest st.options hp c st hc hp

theorem known {next : Options → Engine α}
    (rest : ∀ o, o.property = p → Traces s p (next o) traced) :
    Traces s p (Engine.options >>= next) traced := fun c st hc hp =>
  rest st.options hp c st hc hp

theorem schema {next : Schema → Engine α} {traced : Schema → Traced α}
    (rest : Traces s p (next s) (traced s)) :
    Traces s p (Engine.schema >>= next) (.quiet Engine.schema >>= traced) := fun c st hc hp => by
  subst hc
  exact rest c st rfl hp

theorem heap {next : Heap → Engine α} {traced : Heap → Traced α}
    (rest : ∀ h, Traces s p (next h) (traced h)) :
    Traces s p (Engine.heap >>= next) (.quiet Engine.heap >>= traced) := fun c st hc hp =>
  rest st.heap c st hc hp

theorem holding (vs : List Value) (inner : Traces s p act traced) :
    Traces s p (Engine.holding vs act) (.holding vs traced) := fun c st hc hp =>
  inner { c with held := vs ++ c.held } st hc hp

theorem concerning {q : Property} (inner : Traces s (some q) act traced) :
    Traces s p (Engine.concerning q act) (.concerning q traced) := fun c st hc hp => by
  obtain ⟨same, told⟩ := inner c { st with options := { st.options with property := some q } } hc rfl
  obtain ⟨continues, owned, added, diagnostics, complete⟩ := told
  refine ⟨?_, ⟨continues.strict, rfl, continues.silent, continues.appended⟩, owned, added,
    diagnostics, complete⟩
  rw [Engine.concerning, ← same]
  rfl

theorem told_signal (e : Error) (c : Context) (st : State) (reports : List Report)
    (owned : ∀ r ∈ reports, r.atHand = r.owner)
    (complete : (Fault.invalid? (.error e)).toList = reports.map Report.error) :
    Told st.options (Engine.signal e c st) reports := by
  have stopped : Told st.options ((.error (.error e), st) : Except Fault Value × State) reports :=
    ⟨.refl _, owned, [], (List.append_nil _).symm, complete⟩
  unfold Engine.signal Options.record?
  cases hd : st.options.diagnostics with
  | none => exact stopped
  | some ds =>
    dsimp only
    split
    · rename_i he
      split at he
      · cases he
        refine ⟨⟨rfl, rfl, fun h => ?_, fun ds' h => ?_⟩, owned, [.recorded e], ?_, ?_⟩
        · cases hd.symm.trans h
        · cases hd.symm.trans h
          exact ⟨_, rfl⟩
        · rw [hd]
          rfl
        · rw [← complete]
          cases e <;> rfl
      · cases he
    · exact stopped

theorem signal {e : Error} (he : Fault.invalid? (.error e) = none) :
    Traces s p (Engine.signal e) (.quiet (Engine.signal e)) := fun c st _ _ =>
  ⟨rfl, told_signal e c st [] (fun _ h => absurd h List.not_mem_nil) (by rw [he]; rfl)⟩

theorem invalid (v : Value) : Traces s p (Engine.invalid v) (.invalid p v) := fun c st _ hp => by
  have told :=
    told_signal (.invalidValue (st.options.property.map Property.name) (st.heap.text v)) c st
    [⟨p, st.options.property, v, st.heap.text v⟩] (fun r hr => ?_) ?_
  · exact ⟨rfl, told⟩
  · rw [List.mem_singleton.1 hr]
    exact hp
  · rw [hp]
    rfl

end Traces

end Engine

end Overlay
