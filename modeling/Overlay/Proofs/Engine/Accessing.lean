import Overlay.Proofs.Engine.Deepening
import Overlay.Proofs.Engine.Wrapping
import Overlay.Proofs.Schema.Accessors

/-!
# Accessors and access by name

Calling an accessor is reading or writing the property accessed (`Schema.accessed?`), one level of
nesting deeper, while the model and the arguments are in use. So it is getting or setting by name if
that is the property that the name finds.

* `Engine.perform_call_get`, `Engine.perform_call_set` : calling an accessor, under any bound;
* `Engine.accessors_agree` : **what calling the accessors of a property does**, whatever hooks and
  methods there are;
* `Engine.accessor_reads_other` : two names with the same capital have the accessors of the first,
  and a name may find a property of a derived type that is stored under it.
-/

namespace Overlay.Engine

variable {α : Type} {c : Context} {st : State} {m : ModelId} {name : String} {q : Property}

/-- If the first run does not meet the bound on nesting, the second one ends with the same result
and in the same state. -/
def EndAlike (c : Context) (st : State) (act act' : Engine α) : Prop :=
  (act c st).1 ≠ .error .exhausted → act' c st = act c st

/-- A call is allowed no more nesting than the operation on a property, and takes one level. -/
theorem call_run (s : Schema) (m : ModelId) (name : String) (arguments : List Value)
    (besides : Nat) :
    ∃ depth ≤ s.budget besides, ∀ c st, c.schema = s →
      call m name arguments c st = perform (depth + 1) (.call m name arguments) c st := by
  obtain ⟨depth, hd⟩ := s.budget_eq_succ 0
  have le : s.budget 0 ≤ s.budget besides := by
    unfold Schema.budget
    omega
  refine ⟨depth, by omega, fun c st hc => ?_⟩
  have weight : (Operation.call m name arguments).weight = 0 := rfl
  rw [call, Operation.run, weight, hc, hd]

/-- Calling an accessor for reading reads the property while the model is in use. -/
theorem perform_call_get (stands : c.schema.callee? (st.heap.type m) name = some (.read q))
    (depth : Nat) : perform (depth + 1) (.call m name []) c st =
      holding [.model m] (perform depth (.get m q)) c st := by
  show callMethod (perform depth) m name [] c st = _
  unfold callMethod holding
  simp only [bind_run, heap, schema, stands]

/-- Calling an accessor for writing writes the property, apart from the options, while the model and
the value are in use. -/
theorem perform_call_set (stands : c.schema.callee? (st.heap.type m) name = some (.write q))
    (depth : Nat) (v : Value) : perform (depth + 1) (.call m name [v]) c st =
      holding [.model m, v] (do
        apart (perform depth (.set m q v))
        return Value.undefined) c st := by
  show callMethod (perform depth) m name [v] c st = _
  unfold callMethod holding
  simp only [bind_run, heap, schema, stands, List.headD_cons]

theorem apart_congr {act act' : Engine α}
    (same : ∀ st', st'.heap = st.heap → act c st' = act' c st') :
    apart act c st = apart act' c st := by
  have run := same { st with options := .throwing } rfl
  simp only [apart, run]

theorem call_get_endAlike (stands : c.schema.callee? (st.heap.type m) name = some (.read q)) :
    EndAlike c st (call m name []) (holding [.model m] (getProperty m q)) := by
  intro ends
  obtain ⟨depth, le, run⟩ := call_run c.schema m name [] q.weight
  rw [run c st rfl, perform_call_get stands depth] at ends ⊢
  have bounded : getProperty m q { c with held := [.model m] ++ c.held } st =
      perform (c.schema.budget q.weight) (.get m q)
        { c with held := [.model m] ++ c.held } st := rfl
  unfold holding at ends ⊢
  rw [bounded]
  exact perform_deepens le (.get m q) _ st ends

theorem call_set_endAlike (stands : c.schema.callee? (st.heap.type m) name = some (.write q))
    (v : Value) : EndAlike c st (call m name [v])
      (holding [.model m, v] do apart (setProperty m q v); return Value.undefined) := by
  intro ends
  obtain ⟨depth, le, run⟩ := call_run c.schema m name [v] q.weight
  rw [run c st rfl, perform_call_set stands depth v] at ends ⊢
  have deeper := ((perform_deepens le (.set m q v)).apart.andThen fun _ => pure Value.undefined)
    { c with held := [.model m, v] ++ c.held } st ends
  have bounded : apart (setProperty m q v) { c with held := [.model m, v] ++ c.held } st =
      apart (perform (c.schema.budget q.weight) (.set m q v))
        { c with held := [.model m, v] ++ c.held } st := apart_congr fun _ _ => rfl
  unfold holding
  rw [← deeper, bind_run, bind_run, bounded]

/-- **What calling the accessors of a property does.** Where no type along the ancestry declares a
method of the name, they read and write the property accessed: the first one declared that has the
name with a capital, the most derived type first. If that has the name itself and the property seen
is what the name finds, this is getting and setting by the name. -/
theorem accessors_agree {p : Property} (composed : c.schema.Composed)
    (seen : p ∈ (c.schema.type (st.heap.type m)).properties.visible) :
    ∃ q, c.schema.accessed? (st.heap.type m) p.name = some q ∧
      (c.schema.NoMethod (st.heap.type m) ("get" ++ capitalize p.name) →
        EndAlike c st (call m ("get" ++ capitalize p.name) [])
            (holding [.model m] (getProperty m q)) ∧
          (q.name = p.name → (c.schema.type (st.heap.type m)).property? p.name = some p →
            EndAlike c st (call m ("get" ++ capitalize p.name) [])
              (holding [.model m] (get m p.name)))) ∧
      (c.schema.NoMethod (st.heap.type m) ("set" ++ capitalize p.name) → ∀ v,
        EndAlike c st (call m ("set" ++ capitalize p.name) [v])
            (holding [.model m, v] do apart (setProperty m q v); return Value.undefined) ∧
          (q.name = p.name → (c.schema.type (st.heap.type m)).property? p.name = some p →
            EndAlike c st (call m ("set" ++ capitalize p.name) [v])
              (holding [.model m, v] do apart (set m p.name v); return Value.undefined))) := by
  obtain ⟨q, accessed⟩ := composed.assembled.exists_accessed seen
  have layered := composed.assembled.layered
  refine ⟨q, accessed, fun none => ?_, fun none v => ?_⟩
  · have reads := call_get_endAlike (by rw [Schema.callee?_get layered none, accessed]; rfl)
    refine ⟨reads, fun own found ends => ?_⟩
    rw [← reads ends, composed.accessed?_eq found rfl accessed own]
    unfold holding
    exact get_declared found
  · have writes := call_set_endAlike (by rw [Schema.callee?_set layered none, accessed]; rfl) v
    refine ⟨writes, fun own found ends => ?_⟩
    rw [← writes ends, composed.accessed?_eq found rfl accessed own]
    have sets : apart (set m p.name v) { c with held := [.model m, v] ++ c.held } st =
        apart (setProperty m p v) { c with held := [.model m, v] ++ c.held } st :=
      apart_congr fun st' hh => set_declared (by rw [hh, found]) v
    unfold holding
    rw [bind_run, bind_run, sets]

/-! ### Cards -/

/-- A text, stored under its name. -/
def textNamed (name : String) : Property := ⟨name, name, .builtin .string, [], none, none, true⟩

/-- What declares a card: a title. -/
def cards : Extension :=
  { Extension.empty with
    name := some "Card", properties := Extension.declarations [("title", .marker .string)] }

/-- What declares a signed card: it has a name too, and a method to greet with. -/
def signedCards : Extension :=
  { Extension.empty with
    name := some "SignedCard", properties := Extension.declarations [("name", .marker .string)]
    methods := [("greet", .hook [.constant (.string "hello")])] }

/-- The root and cards. -/
def plainCardSchema : Schema :=
  (Schema.initial.addModel (.extended .root .root cards [textNamed "title"])).2

/-- The root, cards and signed cards. -/
def cardSchema : Schema :=
  (plainCardSchema.addModel
    (.extended ⟨1⟩ (plainCardSchema.type ⟨1⟩) signedCards [textNamed "name"])).2

theorem cardSchema_composed : cardSchema.Composed := by
  have plain : plainCardSchema.Composed := Schema.Composed.initial.derive (by decide) _ rfl
    (show Schema.initial.derive .root cards .none = _ from rfl)
  exact plain.derive (by decide) _ rfl
    (show plainCardSchema.derive ⟨1⟩ signedCards .none = _ from rfl)

/-- A signed card. -/
def card : State :=
  ⟨((Heap.empty.recordOf [("title", .string "Congratulations"), ("name", .string "Ada")]).2.addModel
    ⟨2⟩ (.record ⟨0⟩)).2, .throwing, []⟩

/-- The accessor of the title reads the title. -/
theorem accessors_agree_card :
    (call ⟨0⟩ ("get" ++ capitalize "title") [] ⟨cardSchema, []⟩ card).1 =
        .ok (.string "Congratulations") ∧
      holding [.model ⟨0⟩] (get ⟨0⟩ "title") ⟨cardSchema, []⟩ card =
        call ⟨0⟩ ("get" ++ capitalize "title") [] ⟨cardSchema, []⟩ card := by
  have read : (call ⟨0⟩ ("get" ++ capitalize "title") [] ⟨cardSchema, []⟩ card).1 =
      .ok (.string "Congratulations") := by decide +kernel
  obtain ⟨q, accessed, reads, -⟩ := @accessors_agree ⟨cardSchema, []⟩ card ⟨0⟩ (textNamed "title")
    cardSchema_composed (by decide +kernel)
  have first : cardSchema.accessed? ⟨2⟩ "title" = some (textNamed "title") := by decide +kernel
  obtain rfl : textNamed "title" = q := Option.some.inj (first.symm.trans accessed)
  refine ⟨read, (reads (by unfold Schema.NoMethod; decide +kernel)).2 rfl (by decide +kernel) ?_⟩
  show (call ⟨0⟩ ("get" ++ capitalize "title") [] ⟨cardSchema, []⟩ card).1 ≠ _
  rw [read]
  nofun

/-- What declares a pair whose two names are the same with a capital. -/
def casePairs : Extension :=
  { Extension.empty with
    name := some "Pair"
    properties := Extension.declarations [("a", .marker .string), ("A", .marker .string)] }

/-- The root and that type. -/
def caseSchema : Schema :=
  (Schema.initial.addModel (.extended .root .root casePairs [textNamed "a", textNamed "A"])).2

/-- An instance. -/
def casePair : State :=
  ⟨((Heap.empty.recordOf [("a", .string "small"), ("A", .string "large")]).2.addModel
    ⟨1⟩ (.record ⟨0⟩)).2, .throwing, []⟩

theorem caseSchema_composed : caseSchema.Composed :=
  Schema.Composed.initial.derive (by decide) _ rfl
    (show Schema.initial.derive .root casePairs .none = _ from rfl)

/-- What declares a label: a text. -/
def labelled : Extension :=
  { Extension.empty with
    name := some "Label", properties := Extension.declarations [("text", .marker .string)] }

/-- What declares a cover, which has another text where the label has its own. -/
def covered : Extension :=
  { Extension.empty with
    name := some "Cover"
    properties := Extension.declarations [("cover", .detailed (some (.marker .string)) none
      (some "text") (some [.constant (.string "covered")]) none true)] }

/-- The root and labels. -/
def bareLabelSchema : Schema :=
  (Schema.initial.addModel (.extended .root .root labelled [textNamed "text"])).2

/-- The root, labels and covered ones. -/
def coverSchema : Schema :=
  (bareLabelSchema.addModel (.extended ⟨1⟩ (bareLabelSchema.type ⟨1⟩) covered
    [⟨"cover", "text", .builtin .string, [], some [.constant (.string "covered")], none, true⟩])).2

/-- A covered label. -/
def coverOfLabel : State :=
  ⟨((Heap.empty.recordOf [("text", .string "written")]).2.addModel ⟨2⟩ (.record ⟨0⟩)).2, .throwing, []⟩

theorem coverSchema_composed : coverSchema.Composed := by
  have plain : bareLabelSchema.Composed := Schema.Composed.initial.derive (by decide) _ rfl
    (show Schema.initial.derive .root labelled .none = _ from rfl)
  exact plain.derive (by decide) _ rfl
    (show bareLabelSchema.derive ⟨1⟩ covered .none = _ from rfl)

/-- The accessor named after a property reads another one, although no method is in the way.  And
the accessor may read the property where its name finds another one, which a derived type stores
under it. -/
theorem accessor_reads_other :
    (caseSchema.Composed ∧ textNamed "A" ∈ (caseSchema.type ⟨1⟩).properties.visible ∧
      caseSchema.NoMethod ⟨1⟩ ("get" ++ capitalize "A") ∧
      (call ⟨0⟩ ("get" ++ capitalize "A") [] ⟨caseSchema, []⟩ casePair).1 = .ok (.string "small") ∧
      (get ⟨0⟩ "A" ⟨caseSchema, []⟩ casePair).1 = .ok (.string "large")) ∧
    coverSchema.Composed ∧ textNamed "text" ∈ (coverSchema.type ⟨2⟩).properties.visible ∧
      coverSchema.NoMethod ⟨2⟩ ("get" ++ capitalize "text") ∧
      coverSchema.accessed? ⟨2⟩ "text" = some (textNamed "text") ∧
      (call ⟨0⟩ ("get" ++ capitalize "text") [] ⟨coverSchema, []⟩ coverOfLabel).1 =
        .ok (.string "written") ∧
      (get ⟨0⟩ "text" ⟨coverSchema, []⟩ coverOfLabel).1 = .ok (.string "covered") := by
  refine ⟨⟨caseSchema_composed, by decide +kernel, ?_, by decide +kernel, by decide +kernel⟩,
    coverSchema_composed, by decide +kernel, ?_, by decide +kernel, by decide +kernel,
    by decide +kernel⟩
  all_goals
    unfold Schema.NoMethod
    decide +kernel

end Overlay.Engine
