import Overlay.Proofs.Engine.Modes
import Overlay.Proofs.Engine.Tracing

/-!
# The property at hand

An operation finds in the options the property whose value it deals with, and leaves them as it
found them.  For each operation this is read off the traced one, which has that property from its
caller.

* `Schema.Built.perform_traces` : the traced operations do what the operations do;
* `Request.reports_attributed` : **whatever comes of a request, the property at hand and the
  strictness are what they were, diagnostics were only added, and each invalid value was reported
  while the property whose value it is was at hand.**
-/

namespace Overlay

namespace Engine

namespace Traces

variable {s : Schema} {p : Option Property} {perform : Perform} {traced : Traced.Performs}

/-! ### Coercion -/

theorem coerceScalar (b : Builtin) (v : Value) :
    Traces s p (coerceScalar b v) (.coerceScalar p b v) := by
  unfold Engine.coerceScalar Traced.coerceScalar
  split
  · exact pure _
  · refine options fun o _ => ?_
    split
    · exact invalid v
    · cases b.converted? v with
      | some w => exact pure w
      | none => exact invalid v

theorem coerceInteger (v : Value) : Traces s p (coerceInteger v) (.coerceInteger p v) := by
  refine (coerceScalar _ v).bind fun w => ?_
  cases w with
  | number x =>
    dsimp only
    split
    · exact pure _
    · exact invalid v
  | _ => exact pure _

theorem replaceItems {action : Value → Engine Value} {action' : Value → Traced Value}
    (each : ∀ v, Traces s p (action v) (action' v)) (a : ArrayId) (i count : Nat) :
    Traces s p (replaceItems action a i count) (.replaceItems action' a i count) := by
  induction count generalizing i with
  | zero => exact pure _
  | succ count ih =>
    exact heap fun _ => (each _).bind fun _ => (quiet (.changeHeap _)).bind fun _ => ih _

section Elements

variable {stored : Property → Value → Engine Value} {stored' : Property → Value → Traced Value}
  (each : ∀ q v, Traces s p (stored q v) (stored' q v))

include each

/-- Elements are coerced for the element property of the property at hand, which is the owner. -/
theorem coerceArray (v : Value) :
    Traces s p (coerceArray stored v) (.coerceArray stored' p v) := by
  unfold Engine.coerceArray Traced.coerceArray
  cases v with
  | undefined => exact pure _
  | null => exact pure _
  | array a =>
    refine known fun o ho => ?_
    rw [ho]
    dsimp only
    cases p.bind (·.elementProperty?) with
    | none => exact pure _
    | some q => exact heap fun _ => (holding _ (replaceItems (each q) _ _ _)).bind fun _ => pure _
  | _ => exact invalid _

theorem coerceBuiltin (b : Builtin) (v : Value) :
    Traces s p (coerceBuiltin stored b v) (.coerceBuiltin stored' p b v) := by
  cases b with
  | integer => exact coerceInteger v
  | object => exact pure _
  | array => exact coerceArray each v
  | string => exact coerceScalar _ v
  | number => exact coerceScalar _ v
  | boolean => exact coerceScalar _ v
  | date => exact coerceScalar _ v

end Elements

theorem denote (form : Heap → Constant → Value) (cs : Constants) (t : TypeId) (v : Value) :
    Traces s p (denote form cs t v) (.denote form cs p t v) := by
  unfold Engine.denote Traced.denote
  split
  · exact pure _
  · refine heap fun h => schema ?_
    cases cs.denoted? s h t v with
    | some c => exact pure _
    | none => exact invalid v

theorem coerceUnder (hs : s.Built) (t : TypeId) (v : Value) :
    Traces s p (coerceUnder perform t v) (.coerceUnder p t v) := by
  refine schema ?_
  cases hr : (s.type t).coerce with
  | some rule =>
    obtain ⟨cs, rfl⟩ := (hs.soundAt t).coerce rule hr
    exact denote _ cs t v
  | none => exact pure _

/-! ### Writing -/

section Writing

variable {q : Property}
  (coerce : ∀ v, Traces s (some q) (perform (.coerce q.type v)) (traced (some q) (.coerce q.type v)))
  (wrap : ∀ v, Traces s (some q) (perform (.wrap q.type v)) (traced (some q) (.wrap q.type v)))

include coerce in
theorem adapt (v : Value) : Traces s (some q) (adapt perform q v) (.adapt traced q v) := by
  cases v with
  | model m =>
    refine heap fun h => schema ?_
    split
    · exact pure _
    · exact coerce _
  | _ => exact coerce _

include wrap in
theorem settle (v : Value) : Traces s (some q) (settle perform q v) (.settle traced q v) := by
  refine schema ?_
  split
  · exact pure _
  · refine (holding _ (wrap v)).bind fun w => ?_
    split
    · exact pure _
    · exact heap fun _ => pure _

include coerce wrap

theorem stored (v : Value) : Traces s p (stored perform q v) (.stored traced q v) :=
  concerning ((adapt coerce v).bind fun _ => settle wrap _)

theorem writeProperty (hq : q.setter = none) (m : ModelId) (v : Value) :
    Traces s p (writeProperty perform m q v) (.writeProperty traced m q v) := by
  refine holding _ ((concerning (adapt coerce v)).bind fun w => ?_)
  rw [hq]
  refine (concerning (settle wrap w)).bind fun u => heap fun h => ?_
  cases h.record? m with
  | some r => exact quiet (.changeHeap _)
  | none => exact pure _

end Writing

/-! ### Constructing and wrapping -/

theorem recordFor (data : Option Value) : Traces s p (recordFor data) (.recordFor p data) := by
  unfold Engine.recordFor Traced.recordFor
  cases data.getD .undefined with
  | record r => exact pure r
  | undefined => exact quiet (.allocate _)
  | null => exact quiet (.allocate _)
  | _ => exact (invalid _).bind fun _ => quiet (.allocate _)

theorem admitEntries {type : ModelType} {m : ModelId}
    (set : ∀ key q, type.property? key = some q → ∀ v,
      Traces s p (perform (.set m q v)) (traced p (.set m q v)))
    (es : List (String × Value)) :
    Traces s p (admitEntries perform m type es) (.admitEntries traced p m type es) := by
  induction es with
  | nil => exact pure _
  | cons e es ih =>
    obtain ⟨key, v⟩ := e
    refine (holding _ ?_).bind fun _ => ih
    unfold Engine.admitEntry Traced.admitEntry
    split
    · exact pure _
    · cases hq : type.property? key with
      | some q => exact set key q hq v
      | none =>
        dsimp only
        split
        · exact pure _
        · exact (signal (e := .unrecognizedKey key) rfl).bind fun _ => pure _

theorem checkConstant (cs : Constants) (m : ModelId) :
    Traces s p (checkConstant cs m) (.checkConstant cs p m) := by
  refine heap fun h => ?_
  split
  · exact (invalid _).bind fun _ => pure _
  · exact pure _

theorem runInit {rules : List Rule} (ofConstants : ∀ rule ∈ rules, rule.OfConstants) (m : ModelId) :
    Traces s p (runInit perform m rules) (.runInit p m rules) := by
  induction rules with
  | nil => exact pure _
  | cons rule rules ih =>
    obtain ⟨cs, rfl⟩ := ofConstants rule List.mem_cons_self
    exact (checkConstant cs m).bind fun _ =>
      ih fun rule hr => ofConstants rule (List.mem_cons_of_mem _ hr)

theorem construct (hs : s.Built) {t : TypeId}
    (set : ∀ key q, (s.type t).property? key = some q → ∀ m v,
      Traces s p (perform (.set m q v)) (traced p (.set m q v)))
    (data : Option Value) : Traces s p (construct perform t data) (.construct traced p t data) := by
  refine schema ?_
  dsimp only
  split
  · exact quiet (.raise rfl)
  · have finish : ∀ m : ModelId, Traces s p (do
        let s ← Engine.schema
        Engine.runInit perform m (s.initRules t)
        return m) (do
        let s ← Traced.quiet Engine.schema
        Traced.runInit p m (s.initRules t)
        return m) := fun m =>
      schema ((runInit (hs.initRules t) m).bind fun _ => pure _)
    split
    · refine (recordFor data).bind fun r => (quiet (.allocate _)).bind fun m => heap fun _ =>
        Traces.bind ?_ fun _ => (quiet (.changeHeap _)).bind fun _ => (pure _).bind fun _ => finish _
      exact admitEntries (fun key q hq v => set key q hq m v) _
    · exact (quiet (.allocate _)).bind fun m => finish m

section Wrapping

variable {t : TypeId}
  (create : ∀ data, Traces s p (perform (.create t data)) (traced p (.create t data)))

include create

theorem wrapData (v : Value) : Traces s p (wrapData perform t v) (.wrapData traced p t v) := by
  refine schema ?_
  dsimp only
  split
  · exact pure _
  · split
    · exact quiet (.raise rfl)
    · split
      · exact invalid v
      · have made : Traces s p (do return Value.model (← perform (.create t (some v))))
            (do return Value.model (← traced p (.create t (some v)))) :=
          (create _).bind fun _ => pure _
        cases v with
        | record r =>
          refine (holding _ (quiet (.wrapper? r))).bind fun existing => ?_
          cases existing with
          | some m => exact pure _
          | none => exact made
        | _ => exact made

theorem wrapStandard (hs : s.Built) (v : Value) :
    Traces s p (wrapStandard perform t v) (.wrapStandard traced p t v) := by
  refine (quiet (.instance? t v)).bind fun existing => ?_
  cases existing with
  | some m => exact pure _
  | none =>
    refine (coerceUnder hs t v).bind fun w => ?_
    dsimp only
    split
    · exact pure _
    · refine (quiet (.instance? t w)).bind fun existing => ?_
      cases existing with
      | some m => exact pure _
      | none =>
        cases w with
        | model m => exact (quiet (.release m)).bind fun _ => wrapData create _
        | _ => exact wrapData create _

theorem wrapUnder (hs : s.Built) (v : Value) :
    Traces s p (wrapUnder perform t v) (.wrapUnder traced p t v) := by
  refine schema ?_
  cases hr : (s.type t).wrap with
  | custom rule =>
    obtain ⟨cs, rfl⟩ := (hs.soundAt t).wrap rule hr
    exact denote _ cs t v
  | standard => exact wrapStandard create hs v
  | disabled => exact wrapStandard create hs v

end Wrapping

end Traces

end Engine

open Engine

/-! ### Operations -/

/-- The operations that take options, when they run no setter. -/
def Operation.Followed {α : Type} : Operation α → Prop
  | .get _ _ => False
  | .set _ p _ => p.setter = none
  | .call _ _ _ => False
  | _ => True

/-- Without hooks, the traced operations do what the operations do, and tell of all their
reports. -/
theorem Schema.Built.perform_traces {s : Schema} (hs : s.Built) (depth : Nat) {α : Type}
    (p : Option Property) (op : Operation α) (followed : op.Followed) :
    Traces s p (Engine.perform depth op) (Traced.perform depth p op) := by
  induction depth generalizing α p with
  | zero => exact .quiet .exhausted
  | succ depth ih =>
    have coerces : ∀ q v, Traces s (some q) (Engine.perform depth (.coerce q.type v))
        (Traced.perform depth (some q) (.coerce q.type v)) := fun q v => ih (some q) _ trivial
    have wraps : ∀ q v, Traces s (some q) (Engine.perform depth (.wrap q.type v))
        (Traced.perform depth (some q) (.wrap q.type v)) := fun q v => ih (some q) _ trivial
    have stored : ∀ q v, Traces s p (Engine.stored (Engine.perform depth) q v)
        (Traced.stored (Traced.perform depth) q v) := fun q => .stored (coerces q) (wraps q)
    cases op with
    | coerce t v =>
      cases t with
      | builtin b => exact .coerceBuiltin stored b v
      | model t => exact .coerceUnder hs t v
      | adapter a => exact .pure v
    | wrap t v =>
      cases t with
      | builtin b => exact .coerceBuiltin stored b v
      | model t => exact .wrapUnder (fun data => ih p (.create t data) trivial) hs v
      | adapter a =>
        refine .schema ?_
        have none : s.adapter? a = none := by simp [Schema.adapter?, hs.adapters]
        rw [none]
        exact .pure v
    | create t data =>
      exact .construct hs (fun _ q hq m v => ih p (.set m q v) ((hs.soundAt t).plainBelow hq).setter)
        data
    | get m q => exact followed.elim
    | set m q v => exact .writeProperty (coerces q) (wraps q) followed m v
    | call m name arguments => exact followed.elim

/-! ### Requests -/

/-- Does an operation on a value of a property. -/
def Operation.traced {α : Type} (op : Operation α) (owner : Option Property) : Traced α :=
  fun c st =>
  Traced.perform (c.schema.budget op.weight) owner op c st

namespace Request

variable {s : Schema} {α : Type}

/-- What a request asks for, done for a value of a property. -/
def traced (owner : Option Property) : Request α → Traced α
  | create t data => (Operation.create t data).traced owner
  | wrap t v => (Operation.wrap t v).traced owner
  | set m name v => do
    let type := (← Traced.quiet schema).type ((← Traced.quiet heap).type m)
    match type.property? name with
    | some p => (Operation.set m p v).traced owner
    | none => Traced.quiet (raise (.unknownProperty type.name name))
  | storedForm p v => do
    let budget := (← Traced.quiet schema).budget p.weight
    Traced.stored (Traced.perform budget) p v

/-- The traced request does what the request does, and tells of all its reports. -/
theorem run_traces (hs : s.Built) (q : Request α) (p : Option Property) :
    Traces s p q.run (q.traced p) := by
  have perform : ∀ {α : Type} (op : Operation α), op.Followed → Traces s p op.run (op.traced p) :=
    fun op followed c st hc hp => by
      have traces := hs.perform_traces (c.schema.budget op.weight) p op followed
      exact traces c st hc hp
  cases q with
  | create t data => exact perform _ trivial
  | wrap t v => exact perform _ trivial
  | set m name v =>
    show Traces s p (property m name >>= fun q => setProperty m q v) _
    unfold property typeOf
    simp only [bind_assoc, pure_bind]
    refine .schema (.heap fun h => ?_)
    dsimp only
    cases hq : (s.type (h.type m)).property? name with
    | some q => exact perform (.set m q v) (hs.plainBelow_size hq).setter
    | none => exact .quiet (.raise (e := .unknownProperty _ name) rfl)
  | storedForm q v =>
    refine .schema (.stored (fun v => ?_) (fun v => ?_) v)
    · exact hs.perform_traces _ _ (.coerce q.type v) trivial
    · exact hs.perform_traces _ _ (.wrap q.type v) trivial

/-- **The property at hand is the one whose value is at hand, and it is the one before again in the
end.**  Under a schema without hooks, whatever a request starts from and however it ends: the
property at hand and the strictness are what they were, and diagnostics were only added.  At each
report of an invalid value, the property at hand was the one whose value was coerced or wrapped: the
property or element property that was dealt with, or what was at hand at the start if the request
was made for no property.  The reports are all the invalid values that were added to the diagnostics
or stopped the run, in order.  If there was no property at hand at the start, the run is not cut
short. -/
theorem reports_attributed (hs : s.Built) (q : Request α) (held : List Value) (st : State) :
    let run := q.run ⟨s, held⟩ st
    let told := q.traced st.options.property ⟨s, held⟩ st
    st.options.Continue run.2.options ∧ told.1 = run ∧ (∀ r ∈ told.2, r.atHand = r.owner) ∧
      (∃ added, run.2.options.diagnostics.getD [] = st.options.diagnostics.getD [] ++ added ∧
        complaints run.1 added = told.2.map Report.error) ∧
      (q.KnownTo s → st.options.property = none → run.1 ≠ .error .exhausted) := by
  intro run told
  have traces : Traces s st.options.property q.run (q.traced st.options.property) :=
    run_traces hs q st.options.property
  obtain ⟨same, continues, owned, complete⟩ := traces ⟨s, held⟩ st rfl rfl
  refine ⟨continues, same, owned, complete, fun known hand => ?_⟩
  have orderly : Orderly s none q.run := run_orderly hs known
  exact (orderly.keeps rfl hand).1

/-! ### A shelf -/

/-- What declares a slot. -/
def slots : Extension :=
  { Extension.empty with name := some "Slot", properties := [("width", .marker .integer)] }

/-- What declares a shelf with a slot and marks. -/
def shelves : Extension :=
  { Extension.empty with
    name := some "Shelf"
    properties := [("slot", .type (.model ⟨1⟩)), ("marks", .array [.marker .integer]),
      ("height", .marker .number)] }

/-- The root, slots and shelves. -/
def shelfSchema : Schema :=
  let s := (Schema.initial.addModel (.extended .root .root slots
    [⟨"width", "width", .builtin .integer, [], none, none, true⟩])).2
  (s.addModel (.extended .root .root shelves
    [⟨"slot", "slot", .model ⟨1⟩, [], none, none, true⟩,
      ⟨"marks", "marks", .builtin .array, [.builtin .integer], none, none, true⟩,
      ⟨"height", "height", .builtin .number, [], none, none, true⟩])).2

theorem shelfSchema_built : shelfSchema.Built :=
  (Schema.Built.initial.extend .root slots (by decide) ⟨rfl, nofun, rfl, rfl⟩ rfl
    (by decide)).extend .root shelves (by decide) ⟨rfl, nofun, rfl, rfl⟩ rfl (by decide)

/-- A shelf with a text wherever a number belongs: in its slot, among its marks, and for its
height. -/
def labelled : State where
  heap := ⟨#[⟨.ofList [("width", .string "wide")], none⟩,
    ⟨.ofList [("slot", .record ⟨0⟩), ("marks", .array ⟨0⟩), ("height", .string "tall")], none⟩],
    #[[.null, .string "two"]], #[]⟩
  options := .collecting ["before"]
  log := []

/-- Makes a model of it. -/
def shelved : Except Fault ModelId × State :=
  (Request.create ⟨2⟩ (some (.record ⟨1⟩))).run ⟨shelfSchema, [.record ⟨1⟩]⟩ labelled

/-- Makes a model of it, and tells of the reports. -/
def toldOfShelf : (Except Fault ModelId × State) × List Report :=
  (Request.create ⟨2⟩ (some (.record ⟨1⟩))).traced labelled.options.property
    ⟨shelfSchema, [.record ⟨1⟩]⟩ labelled

/-- Each text is reported for its own property, that in the slot and that among the marks, too. -/
theorem reports_attributed_shelf :
    toldOfShelf.2.map (fun r => (r.owner.map fun p => (p.name, p.type), r.text)) =
        [(some ("width", .builtin .integer), "wide"), (some ("marks", .builtin .integer), "two"),
          (some ("height", .builtin .number), "tall")] ∧
      labelled.options.Continue shelved.2.options ∧ toldOfShelf.1 = shelved ∧
      (∀ r ∈ toldOfShelf.2, r.atHand = r.owner) ∧ shelved.1 ≠ .error .exhausted := by
  have reports : toldOfShelf.2.map (fun r => (r.owner.map fun p => (p.name, p.type), r.text)) =
      [(some ("width", .builtin .integer), "wide"), (some ("marks", .builtin .integer), "two"),
        (some ("height", .builtin .number), "tall")] := by decide +kernel
  obtain ⟨continues, same, owned, -, ends⟩ := reports_attributed shelfSchema_built
    (.create ⟨2⟩ (some (.record ⟨1⟩))) [.record ⟨1⟩] labelled
  have known : 2 < shelfSchema.models.size := by decide
  refine ⟨reports, ?_⟩
  -- Unfolded first, so that the two sides are compared as written and not by running them.
  unfold shelved toldOfShelf
  exact ⟨continues, same, owned, ends known rfl⟩

end Request

end Overlay
