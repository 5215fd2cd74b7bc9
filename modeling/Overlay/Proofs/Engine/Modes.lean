import Overlay.Proofs.Engine.Depth

/-!
# Throwing and collecting

An operation can be run in throwing mode, where the first failure stops it, or in collecting mode,
where bad data is recorded and the operation goes on.  Without hooks nothing but
`Engine.signal` looks at the mode, so the two runs are the same up to the first error that can be
recorded.

* `Engine.Orderly.modesAgree` : the two runs of an orderly computation agree;
* `Request.modes_agree` : so do those of every request that a program can make, they both end, and
  nothing was collected only if nothing would have been thrown.
-/

namespace Overlay

/-- The same state in collecting mode, with these diagnostics so far. -/
def State.collecting (st : State) (ds : List Diagnostic) : State :=
  { st with options := { st.options with diagnostics := some ds } }

namespace Engine

/-- How a run in collecting mode, from some diagnostics on, compares with the run in throwing mode
from the same state: `t` is how the latter ends and `k` how the former does. -/
structure ModesAgree {α : Type} (ds : List Diagnostic) (t k : Except Fault α × State) : Prop where
  /-- A result is the same result in collecting mode, and the state is the same. -/
  ok : ∀ a, t.1 = .ok a → k = (.ok a, t.2.collecting ds)
  /-- An error that can be recorded is the first one recorded. -/
  recorded : ∀ e, t.1 = .error (.error e) → e.isRecordable = true →
    ∃ more, k.2.options.diagnostics = some (ds ++ .recorded e :: more)
  /-- Any other error stops the run in collecting mode too, with nothing recorded. -/
  raised : ∀ e, t.1 = .error (.error e) → e.isRecordable = false →
    k = (.error (.error e), t.2.collecting ds)

namespace ModesAgree

variable {α : Type} {ds : List Diagnostic}

theorem of_ok (a : α) (st : State) : ModesAgree ds (.ok a, st) (.ok a, st.collecting ds) where
  ok := fun _ h => by cases h; rfl
  recorded := nofun
  raised := nofun

theorem of_raised {e : Error} (he : e.isRecordable = false) (st : State) :
    ModesAgree ds ((.error (.error e), st) : Except Fault α × State)
      (.error (.error e), st.collecting ds) where
  ok := nofun
  recorded := fun e' h he' => by cases h; exact absurd (he.symm.trans he') nofun
  raised := fun _ h _ => by cases h; rfl

end ModesAgree

namespace Orderly

variable {s : Schema} {p : Option Property} {α : Type} {act : Engine α}

/-- What comes after an error was recorded only appends to the diagnostics. -/
theorem bind_appended {β : Type} {next : α → Engine β} (h : Orderly s p act)
    (hn : ∀ a, Orderly s p (next a)) {c : Context} (hc : c.schema = s) {st : State}
    (hp : st.options.property = p) {ds : List Diagnostic}
    (hd : (act c st).2.options.diagnostics = some ds) :
    ∃ more, ((act >>= next) c st).2.options.diagnostics = some (ds ++ more) := by
  have hk := (h.keeps hc hp).2
  rw [bind_run]
  rcases he : act c st with ⟨fault | a, st'⟩
  · rw [he] at hd
    exact ⟨[], by rw [List.append_nil]; exact hd⟩
  · rw [he] at hk hd
    exact ((hn a).keeps hc (hk.property.trans hp)).2.appended ds hd

/-- The two runs of an orderly computation agree. -/
theorem modesAgree (h : Orderly s p act) {c : Context} (hc : c.schema = s) {st : State}
    (hp : st.options.property = p) (ds : List Diagnostic)
    (hd : st.options.diagnostics = none) :
    ModesAgree ds (act c st) (act c (st.collecting ds)) := by
  induction h generalizing c st with
  | pure a => exact .of_ok a st
  | @bind p α β act next first rest ih₁ ih₂ =>
    have agree := ih₁ hc hp hd
    obtain ⟨hne, hk⟩ := first.keeps hc hp
    rcases ht : act c st with ⟨fault | a, st'⟩
    · have hbind : (act >>= next) c st = (.error fault, st') := by rw [bind_run, ht]
      rw [ht] at agree hne
      rw [hbind]
      cases fault with
      | exhausted => exact absurd rfl hne
      | error e =>
        refine ⟨nofun, fun e' he' hr => ?_, fun e' he' hr => ?_⟩
        · cases he'
          obtain ⟨more, hm⟩ := agree.recorded e rfl hr
          obtain ⟨more', hm'⟩ :=
            @bind_appended _ _ _ _ _ _ first rest c hc (st.collecting ds) hp _ hm
          exact ⟨more ++ more', by rw [hm', List.append_assoc, List.cons_append]⟩
        · cases he'
          rw [bind_run, agree.raised e rfl hr]
    · rw [ht] at agree hk
      rw [bind_run, bind_run, ht, agree.ok a rfl]
      exact ih₂ a hc (hk.property.trans hp) (hk.silent hd)
  | schema _ ih =>
    have := ih hc hp hd
    rw [← hc] at this
    exact this
  | heap => exact .of_ok _ st
  | roots => exact .of_ok _ st
  | @options p α next blind _ rest ih =>
    have agree := ih st.options hp hc hp hd
    have hb := blind st.options (some ds)
    show ModesAgree ds _ (next { st.options with diagnostics := some ds } c (st.collecting ds))
    rw [hb]
    exact agree
  | raise he => exact .of_raised he st
  | signal e =>
    unfold Engine.signal Options.record?
    rw [hd]
    by_cases he : e.isRecordable = true
    · simp only [State.collecting, he, if_true]
      refine ⟨fun _ h => (nomatch h), fun e' he' _ => ?_, fun e' he' hr => ?_⟩
      · cases he'
        exact ⟨[], rfl⟩
      · cases he'
        exact absurd (hr.symm.trans he) nofun
    · simp only [State.collecting, he]
      exact .of_raised (by simpa using he) st
  | changeHeap f => exact .of_ok _ _
  | allocate f => exact .of_ok _ _
  | @concerning p α act q _ ih =>
    -- The part runs with `q` at hand, and both runs put back the property they started with.
    obtain ⟨ok, recorded, raised⟩ :=
      @ih c hc { st with options := { st.options with property := some q } } rfl hd
    unfold Engine.concerning
    refine ⟨fun a ha => ?_, recorded, fun e he hr => ?_⟩
    · have hk := ok a ha
      simp only [State.collecting] at hk ⊢
      rw [hk]
    · have hk := raised e he hr
      simp only [State.collecting] at hk ⊢
      rw [hk]
  | holding vs _ ih => exact ih (c := { c with held := vs ++ c.held }) hc hp hd

end Orderly

end Engine

/-! ### Requests -/

open Engine

/-- What a program asks for that takes options, with the type of the result. -/
inductive Request : Type → Type
  /-- A new model around data. -/
  | create (t : TypeId) (data : Option Value) : Request ModelId
  /-- The wrapped form of a value. -/
  | wrap (t : DataType) (v : Value) : Request Value
  /-- Writing the property of this name or storage key. -/
  | set (m : ModelId) (name : String) (v : Value) : Request Unit
  /-- The stored form of a value for a property. -/
  | storedForm (p : Property) (v : Value) : Request Value

namespace Request

variable {s : Schema} {α : Type}

/-- The computation asked for. -/
def run : Request α → Engine α
  | create t data => Engine.create t data
  | wrap t v => Engine.wrap t v
  | set m name v => Engine.set m name v
  | storedForm p v => Engine.storedForm p v

/-- The types and the property that a request names are those of a schema. -/
def KnownTo (s : Schema) : Request α → Prop
  | create t _ => t.index < s.models.size
  | wrap t _ => t.Below s.models.size
  | set _ _ _ => True
  | storedForm p _ => p.PlainBelow s.models.size

theorem run_orderly (hs : s.Built) {q : Request α} (hq : q.KnownTo s) : Orderly s none q.run := by
  cases q with
  | create t data => exact create_orderly hs.stratified hq (hs.calm t) data
  | wrap t v =>
    cases t with
    | model t => exact wrap_orderly hs.stratified hq (hs.calm t) v
    | adapter a => exact hq.elim
    | builtin b =>
      show Orderly s none (schema >>= fun s => Engine.perform (s.budget 0) (.wrap (.builtin b) v))
      refine .schema ?_
      obtain ⟨d, hd⟩ := s.budget_eq_succ 0
      rw [hd]
      exact coerceBuiltin_orderly (fun q h => by cases h) b v
  | set m name v =>
    show Orderly s none (property m name >>= fun p => setProperty m p v)
    unfold property typeOf
    simp only [bind_assoc, pure_bind]
    refine .schema (.bind .heap fun h => ?_)
    split
    · rename_i p hp
      exact setProperty_orderly hs.stratified (hs.calmBelow (hs.plainBelow_size hp)) m v
    · exact .raise rfl
  | storedForm p v => exact storedForm_orderly hs.stratified (hs.calmBelow hq) v

/-- **A request does the same in either mode** up to the first error that can be recorded.  Under a
schema without hooks, from any heap, with either strictness and whatever diagnostics there are at
the start: a result in throwing mode is the result in collecting mode, with the same state and
nothing recorded; an error that can be recorded is the first thing recorded; any other error stops
both.  Neither run is cut short, what was there at the start stays in front, and a result with
nothing recorded is the result in throwing mode. -/
theorem modes_agree (hs : s.Built) {q : Request α} (hq : q.KnownTo s) (held : List Value)
    (heap : Heap) (settings : Settings) (texts : List String) (log : List String) :
    let initial := texts.map Diagnostic.given
    let t := q.run ⟨s, held⟩ ⟨heap, Options.throwing.adopt settings, log⟩
    let k := q.run ⟨s, held⟩ ⟨heap, (Options.collecting texts).adopt settings, log⟩
    ModesAgree initial t k ∧
      (∀ a, k.1 = .ok a → k.2.options.diagnostics = some initial → t.1 = .ok a) ∧
      (∃ more, k.2.options.diagnostics = some (initial ++ more)) ∧
      t.1 ≠ .error .exhausted ∧ k.1 ≠ .error .exhausted := by
  intro initial t k
  have ord := run_orderly hs hq
  have agree : ModesAgree initial t k := ord.modesAgree rfl rfl initial rfl
  obtain ⟨ht, -⟩ :=
    @Orderly.keeps _ _ _ _ ord ⟨s, held⟩ rfl ⟨heap, Options.throwing.adopt settings, log⟩ rfl
  obtain ⟨hk, kept⟩ :=
    @Orderly.keeps _ _ _ _ ord ⟨s, held⟩ rfl ⟨heap, (Options.collecting texts).adopt settings, log⟩
      rfl
  refine ⟨agree, fun a ha hd => ?_, kept.appended initial rfl, ht, hk⟩
  -- any way for the throwing run to fail shows in the collecting run
  rcases hr : t.1 with fault | b
  · cases fault with
    | exhausted => exact absurd hr ht
    | error e =>
      by_cases he : e.isRecordable = true
      · obtain ⟨more, hm⟩ := agree.recorded e hr he
        have := Option.some.inj (hd.symm.trans hm)
        simp at this
      · have := agree.raised e hr (by simpa using he)
        rw [this] at ha
        cases ha
  · have := agree.ok b hr
    rw [this] at ha
    cases ha
    rfl

/-! ### A type of readings -/

/-- What declares a date and a list of integers. -/
def readings : Extension :=
  { Extension.empty with
    name := some "Reading"
    properties := [("at", .marker .date), ("counts", .array [.marker .integer])] }

/-- The root and the type of readings. -/
def readingSchema : Schema :=
  (Schema.initial.addModel (.extended .root .root readings
    [⟨"at", "at", .builtin .date, [], none, none, true⟩,
      ⟨"counts", "counts", .builtin .array, [.builtin .integer], none, none, true⟩])).2

/-- A record of counts, one of which is a text. -/
def miscounted : Heap :=
  ⟨#[⟨.ofList [("counts", .array ⟨0⟩)], none⟩], #[[.null, .string "two"]], #[]⟩

theorem readingSchema_built : readingSchema.Built :=
  Schema.Built.initial.extend .root readings (by decide) ⟨rfl, nofun, rfl, rfl⟩ rfl (by decide)

/-- Wraps the record as a reading. -/
def wrapMiscounted (options : Options) : Except Fault Value × State :=
  (Request.wrap (.model ⟨1⟩) (.record ⟨0⟩)).run ⟨readingSchema, [.record ⟨0⟩]⟩
    ⟨miscounted, options, []⟩

/-- The text is what stops the first run, and what the other one records. -/
theorem modes_agree_on_miscounted :
    (wrapMiscounted (Options.throwing.adopt .default)).1 =
        .error (.error (.invalidValue (some "counts") "two")) ∧
      ∃ more,
        (wrapMiscounted ((Options.collecting ["before"]).adopt .default)).2.options.diagnostics =
        some ([.given "before"] ++ .recorded (.invalidValue (some "counts") "two") :: more) := by
  have thrown : (wrapMiscounted (Options.throwing.adopt .default)).1 =
      .error (.error (.invalidValue (some "counts") "two")) := by decide +kernel
  have agree : ModesAgree [.given "before"] (wrapMiscounted (Options.throwing.adopt .default))
      (wrapMiscounted ((Options.collecting ["before"]).adopt .default)) :=
    (modes_agree readingSchema_built (q := .wrap (.model ⟨1⟩) (.record ⟨0⟩))
      (show 1 < 2 by decide) [.record ⟨0⟩] miscounted .default ["before"] []).1
  exact ⟨thrown, agree.recorded _ thrown rfl⟩

end Request

end Overlay
