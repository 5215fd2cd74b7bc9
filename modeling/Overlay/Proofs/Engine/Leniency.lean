import Overlay.Proofs.Engine.Modes
import Overlay.Proofs.Engine.Standing
import Overlay.Proofs.Plain.Strictness

/-!
# Strict and lenient runs

Strictness makes a difference only where a value that could be converted is refused instead.  So a
strict run that refuses nothing is a lenient one, from any heap.  Where something is refused the
two runs go on from different values, but what they are handed determines what both record.

* `Engine.Orderly.lenient` : a strict run that records nothing is a lenient one;
* `Request.run_comes` : a request on fresh plain data comes to the verdict on their tree;
* `Request.strict_rejects_more` : a lenient run records some of what the strict one does.
-/

namespace Overlay

/-- The same state in lenient mode. -/
def State.lenient (st : State) : State := { st with options := { st.options with strict := false } }

/-- Options that go on twice and have the same diagnostics in the end had them in between. -/
theorem Options.Continue.quiet {o₁ o₂ o₃ : Options} (h₁ : o₁.Continue o₂) (h₂ : o₂.Continue o₃)
    (same : o₃.diagnostics = o₁.diagnostics) : o₂.diagnostics = o₁.diagnostics := by
  cases hd : o₁.diagnostics with
  | none => exact h₁.silent hd
  | some ds =>
    obtain ⟨more, hm⟩ := h₁.appended ds hd
    obtain ⟨more', hm'⟩ := h₂.appended _ hm
    have length := congrArg List.length (Option.some.inj (hm'.symm.trans (same.trans hd)))
    simp only [List.length_append] at length
    obtain rfl : more = [] := List.length_eq_zero_iff.1 (by omega)
    rw [hm, List.append_nil]

namespace Engine

open Heap

namespace Orderly

variable {s : Schema} {p : Option Property} {α : Type} {act : Engine α}

/-- A run that records nothing and gives a result gives the same in lenient mode. -/
theorem lenient (h : Orderly s p act) {c : Context} (hc : c.schema = s) {st : State}
    (hp : st.options.property = p) {a : α} (ok : (act c st).1 = .ok a)
    (quiet : (act c st).2.options.diagnostics = st.options.diagnostics) :
    act c st.lenient = (.ok a, (act c st).2.lenient) := by
  induction h generalizing c st with
  | pure b =>
    cases ok
    rfl
  | @bind p α β act next first rest ih₁ ih₂ =>
    have kept := (first.keeps hc hp).2
    rcases ht : act c st with ⟨fault | b, st'⟩
    · rw [bind_run, ht] at ok
      cases ok
    · have whole : (act >>= next) c st = next b c st' := by rw [bind_run, ht]
      rw [whole] at ok quiet ⊢
      rw [ht] at kept
      have hp' := kept.property.trans hp
      -- diagnostics only ever grow, so a quiet whole has a quiet first part
      have still := kept.quiet ((rest b).keeps hc hp').2 quiet
      have run := ih₁ hc hp (congrArg Prod.fst ht) (by rw [ht]; exact still)
      rw [ht] at run
      rw [bind_run, run]
      exact ih₂ b hc hp' ok (quiet.trans still.symm)
  | @schema p α next _ ih =>
    subst hc
    exact ih rfl hp ok quiet
  | heap =>
    cases ok
    rfl
  | roots =>
    cases ok
    rfl
  | @options p α next blind mild rest ih =>
    have run := ih st.options hp hc hp ok quiet
    show next { st.options with strict := false } c st.lenient = _
    cases strict : st.options.strict with
    | false =>
      have same : { st.options with strict := false } = st.options := by rw [← strict]
      rw [same]
      exact run
    | true =>
      -- under the strict flag the rest either does not look at it or objects, and it did not object
      rcases mild st.options strict with same | objects
      · rw [same]
        exact run
      · exact absurd quiet (objects c st a ok)
  | raise he => cases ok
  | signal e => exact absurd quiet (signal_objects e c st a ok)
  | changeHeap f =>
    cases ok
    rfl
  | allocate f =>
    cases ok
    rfl
  | @concerning p α act q _ ih =>
    have run := @ih c hc { st with options := { st.options with property := some q } } rfl a ok quiet
    unfold Engine.concerning
    simp only [State.lenient] at run ⊢
    rw [run]
  | holding vs _ ih => exact ih (c := { c with held := vs ++ c.held }) hc hp ok quiet

theorem raises (h : Orderly s p act) {c : Context} (hc : c.schema = s) {st : State}
    (hp : st.options.property = p) (collects : st.options.collects = true) {e : Error}
    (stopped : (act c st).1 = .error (.error e)) : e.isRecordable = false := by
  induction h generalizing c st with
  | pure a => cases stopped
  | @bind p α β act next first rest ih₁ ih₂ =>
    have kept := (first.keeps hc hp).2
    rw [bind_run] at stopped
    rcases ht : act c st with ⟨fault | b, st'⟩
    · rw [ht] at stopped
      cases stopped
      exact ih₁ hc hp collects (congrArg Prod.fst ht)
    · rw [ht] at stopped kept
      refine ih₂ b hc (kept.property.trans hp) ?_ stopped
      obtain ⟨ds, hd⟩ := Option.isSome_iff_exists.1 collects
      obtain ⟨more, hm⟩ := kept.appended ds hd
      exact Option.isSome_iff_exists.2 ⟨_, hm⟩
  | @schema p α next _ ih =>
    subst hc
    exact ih rfl hp collects stopped
  | heap => cases stopped
  | roots => cases stopped
  | options _ _ _ ih => exact ih st.options hp hc hp collects stopped
  | raise he =>
    cases stopped
    exact he
  | signal e' =>
    obtain ⟨ds, hd⟩ := Option.isSome_iff_exists.1 collects
    unfold Engine.signal Options.record? at stopped
    rw [hd] at stopped
    by_cases he : e'.isRecordable = true
    · simp [he] at stopped
    · simp only [he] at stopped
      cases stopped
      exact Bool.eq_false_iff.2 he
  | changeHeap f => cases stopped
  | allocate f => cases stopped
  | @concerning p α act q _ ih =>
    exact @ih c hc { st with options := { st.options with property := some q } } rfl collects stopped
  | holding vs _ ih => exact ih (c := { c with held := vs ++ c.held }) hc hp collects stopped

end Orderly

/-- Unless it runs out of depth, the run records the errors of the verdict, and ends as the verdict
says. -/
def ComesTo {α β : Type} (st : State) (V : Verdict β) (run : Except Fault α × State) : Prop :=
  run.1 = .error .exhausted ∨ run.2.options = st.options.noting V.signalled ∧
    match V.result with
    | .error e => run.1 = .error (.error e)
    | .ok _ => ∃ a, run.1 = .ok a

theorem Judged.comesTo {α β : Type} {T : List Value} {st : State} {V : Verdict β}
    {R : α → β → Heap → Prop} {run : Except Fault α × State} (j : Judged T st V R run) :
    ComesTo st V run := by
  refine j.imp id fun ⟨_, noted, ends⟩ => ⟨noted, ?_⟩
  cases hV : V.result with
  | error e =>
    rw [hV] at ends
    exact ends
  | ok b =>
    rw [hV] at ends
    obtain ⟨a, ha, -⟩ := ends
    exact ⟨a, ha⟩

theorem ComesTo.wrote {st : State} {V : Verdict Tree} {run : Except Fault Value × State}
    (come : ComesTo st V run) (m : ModelId) (key : String) : ComesTo st V (wrote m key run) := by
  rcases run with ⟨fault | w, st'⟩
  · refine come.imp (fun h => ?_) fun ⟨noted, ends⟩ => ⟨noted, ?_⟩
    · cases h
      rfl
    · cases hV : V.result with
      | error e =>
        rw [hV] at ends
        cases ends
        rfl
      | ok y =>
        rw [hV] at ends
        obtain ⟨a, ha⟩ := ends
        cases ha
  · refine Or.inr (come.elim (fun h => nomatch h) fun ⟨noted, ends⟩ => ⟨noted, ?_⟩)
    cases hV : V.result with
    | error e =>
      rw [hV] at ends
      cases ends
    | ok y => exact ⟨(), rfl⟩

end Engine

/-! ### Requests -/

open Engine

namespace Request

variable {s : Schema} {α : Type}

/-- The value handed in. -/
def value : Request α → Value
  | create _ data => data.getD .undefined
  | wrap _ v => v
  | set _ _ v => v
  | storedForm _ v => v

/-- What a request on plain data comes to. -/
def verdict (s : Schema) (strict : Bool) (h : Heap) (x : Tree) : Request α → Verdict Tree
  | create t _ => Tree.constructed s strict none t x
  | wrap t _ => Tree.stored s strict (.alone t) x
  | set m name _ =>
    match (s.type (h.type m)).property? name with
    | some p => Tree.stored s strict p.slot x
    | none => .raise (.unknownProperty (s.type (h.type m)).name name)
  | storedForm p _ => Tree.stored s strict p.slot x

theorem verdict_milder (s : Schema) (h : Heap) (x : Tree) (q : Request α) :
    (q.verdict s false h x).Milder (q.verdict s true h x) := by
  cases q with
  | create t _ => exact Tree.constructed_milder s none t x
  | wrap t _ => exact Tree.stored_milder s _ x
  | set m name _ =>
    unfold verdict
    dsimp only
    split
    · exact Tree.stored_milder s _ x
    · exact .refl _
  | storedForm p _ => exact Tree.stored_milder s _ x

section Runs

variable {c : Context} {st : State} {strict : Bool} {cells : List Value} {v : Value} {x : Tree}

theorem wrapUnder_comes (hs : s.Stratified) {t : TypeId} (free : s.Free (.model t))
    (hc : c.schema = s) (depth : Nat) (g : st.options.Gathers strict none)
    (o : Heap.Offered s st.heap (fun _ => False) [some (.alone (.model t))] [v] [x] cells) :
    ComesTo st (Tree.stored s strict (.alone (.model t)) x)
      (wrapUnder (Engine.perform depth) t v c st) := by
  have judges := perform_judges hs strict depth
  have nothing := o.shows.isNothing_eq
  -- nothing goes through a property of its own unless the type wraps
  have same : v.isNothing = true ∨ (s.type t).wraps = false →
      Tree.stored s strict (.alone (.model t)) x = pure x := by
    intro idle
    rw [stored_bare (p := .alone (.model t)) rfl]
    · unfold Tree.bare
      rw [if_pos]
      rw [nothing, Bool.or_eq_true, Bool.not_eq_true']
      exact idle
    · cases x with
      | leaf v => trivial
      | array xs => rfl
      | record es =>
        have wraps : (s.type t).wraps = false := idle.resolve_left fun h => by
          rw [← nothing] at h
          cases h
        show (Slot.alone (.model t)).form? s = none
        simp [Slot.form?, Slot.alone, wraps]
  have plain : v.isModel = false := o.shows.not_model
  by_cases hv : v.isNothing = true
  · subst hc
    rw [same (Or.inl hv), wrapUnder_run _ c st free.ruleFree.wrap free.ruleFree.coerce plain,
      if_pos hv]
    exact Or.inr ⟨(Options.noting_nil _).symm, v, rfl⟩
  · cases wraps : (s.type t).wraps with
    | true =>
      exact (wrapUnder_judged judges free hc (Slot.alone_atHand _) rfl wraps
        (Bool.eq_false_iff.2 hv) g o).comesTo
    | false =>
      subst hc
      rw [same (Or.inr wraps), wrapUnder_run _ c st free.ruleFree.wrap free.ruleFree.coerce plain,
        if_neg hv]
      have disabled : (c.schema.type t).wrap = .disabled := by
        refine free.ruleFree.wrap.resolve_left fun standard => ?_
        rw [ModelType.wraps, standard] at wraps
        cases wraps
      unfold wrapData
      rw [bind_run]
      dsimp only [schema]
      rw [if_pos (by rw [disabled]; rfl)]
      exact Or.inr ⟨(Options.noting_nil _).symm, v, rfl⟩

/-- A request on fresh plain data comes to the verdict on their tree. -/
theorem run_comes (hs : s.Built) (free : ∀ t, (s.type t).RuleFree) {q : Request α}
    (hq : q.KnownTo s) (hc : c.schema = s) (g : st.options.Gathers strict none)
    (trees : st.heap.Trees [q.value] cells) (nodup : cells.Nodup)
    (held : ∀ v ∈ cells, st.heap.Holds v) (sh : st.heap.Shows (· ∈ cells) [q.value] [x]) :
    ComesTo st (q.verdict s strict st.heap x) (q.run c st) := by
  have judges := perform_judges hs.stratified strict
  -- the data are on offer in any slot
  have offered : ∀ e : Slot,
      Heap.Offered s st.heap (fun _ => False) [some e] [q.value] [x] cells := by
    intro e
    obtain ⟨xs, o⟩ := Heap.Offered.of_trees s trees nodup held [some e] rfl
    obtain rfl := o.shows.unique sh
    exact o
  cases q with
  | create t data =>
    subst hc
    obtain ⟨d, hd⟩ := c.schema.budget_eq_succ 0
    show ComesTo st _ (Engine.perform (c.schema.budget 0) (.create t data) c st)
    rw [hd]
    exact (construct_tree (judges d) hs.stratified (hs.free free t) rfl g trees nodup held sh).comesTo
  | wrap t v =>
    subst hc
    obtain ⟨d, hd⟩ := c.schema.budget_eq_succ 0
    show ComesTo st _ (Engine.perform (c.schema.budget 0) (.wrap t v) c st)
    rw [hd]
    cases t with
    | adapter a => exact hq.elim
    | model t => exact wrapUnder_comes hs.stratified (hs.free free t) rfl d g (offered _)
    | builtin b =>
      exact (coerceBuiltin_judged (Slot.alone_atHand _) rfl g (fun h => nomatch h)
        (offered _)).comesTo
  | set m name v =>
    subst hc
    show ComesTo st (verdict c.schema strict st.heap x (.set m name v))
      ((property m name >>= fun p => setProperty m p v) c st)
    rw [bind_run]
    unfold verdict
    dsimp only
    cases hp : (c.schema.type (st.heap.type m)).property? name with
    | none =>
      rw [property_missing hp]
      exact Or.inr ⟨(Options.noting_nil _).symm, rfl⟩
    | some p =>
      rw [property_found hp]
      obtain ⟨mid, judged, written⟩ := (judges (c.schema.budget p.weight)).set (c := c) (m := m) rfl
        (hs.freeProperty free (hs.plainBelow_size hp) (Nat.le_refl _)) g (offered p.slot)
      have run : setProperty m p v c st = wrote m p.storageKey mid := written
      dsimp only
      rw [run]
      exact judged.comesTo.wrote m _
  | storedForm p v =>
    subst hc
    exact (stored_judged c (judges _) rfl (hs.freeProperty free hq (Nat.le_refl _)) g
      (offered _)).comesTo

end Runs

/-- **Strictness only rejects more.**  Take any schema without hooks, any request, whatever is in
use, and any heap.

With diagnostics collected or not: a strict run that gives a result and records nothing is the
lenient run, with the same result and the same state.

Where diagnostics are collected and what is handed in is a fresh plain tree, all of whose cells are
different and have no models attached: what the lenient run records is recorded by the strict one
too, in the same order, and both give a result or are stopped by the same error, which is none that
could have been recorded. -/
theorem strict_rejects_more (hs : s.Built) (free : ∀ t, (s.type t).RuleFree) {q : Request α}
    (hq : q.KnownTo s) (held : List Value) (heap : Heap) (log : List String) :
    let run (strict : Bool) (diagnostics : Option (List Diagnostic)) :=
      q.run ⟨s, held⟩ ⟨heap, ⟨diagnostics, strict, none⟩, log⟩
    (∀ diagnostics a, (run true diagnostics).1 = .ok a →
      (run true diagnostics).2.options.diagnostics = diagnostics →
        run false diagnostics = (.ok a, (run true diagnostics).2.lenient)) ∧
    ∀ cells, heap.Trees [q.value] cells → cells.Nodup → (∀ v ∈ cells, heap.Holds v) →
      ∀ before, ∃ mild harsh,
        (run false (some before)).2.options.diagnostics = some (before ++ mild) ∧
        (run true (some before)).2.options.diagnostics = some (before ++ harsh) ∧
        mild.Sublist harsh ∧
        ((∃ a a', (run false (some before)).1 = .ok a ∧ (run true (some before)).1 = .ok a') ∨
          ∃ e, e.isRecordable = false ∧ (run false (some before)).1 = .error (.error e) ∧
            (run true (some before)).1 = .error (.error e)) := by
  intro run
  have ord := run_orderly hs hq
  refine ⟨fun diagnostics a ok quiet => ord.lenient rfl rfl ok quiet, ?_⟩
  intro cells trees nodup there before
  obtain ⟨xs, sh⟩ := trees.shows
  obtain ⟨x, rfl⟩ := List.length_eq_one_iff.1 sh.length_eq.symm
  -- either run ends and comes to its verdict
  have ends : ∀ strict, (run strict (some before)).2.options.diagnostics =
        some (before ++ (q.verdict s strict heap x).signalled.map .recorded) ∧
      match (q.verdict s strict heap x).result with
      | .error e => e.isRecordable = false ∧ (run strict (some before)).1 = .error (.error e)
      | .ok _ => ∃ a, (run strict (some before)).1 = .ok a := by
    intro strict
    let st : State := ⟨heap, ⟨some before, strict, none⟩, log⟩
    have come : ComesTo st (q.verdict s strict heap x) (run strict (some before)) :=
      run_comes hs free hq rfl ⟨rfl, rfl, rfl⟩ trees nodup there sh
    obtain ⟨noted, result⟩ := come.resolve_left (@Orderly.keeps _ _ _ _ ord ⟨s, held⟩ rfl st rfl).1
    refine ⟨by rw [noted]; rfl, ?_⟩
    cases hV : (q.verdict s strict heap x).result with
    | error e =>
      rw [hV] at result
      exact ⟨@Orderly.raises _ _ _ _ ord ⟨s, held⟩ rfl st rfl rfl e result, result⟩
    | ok y =>
      rw [hV] at result
      exact result
  obtain ⟨noted, result⟩ := ends false
  obtain ⟨noted', result'⟩ := ends true
  have milder := q.verdict_milder s heap x
  refine ⟨_, _, noted, noted', milder.signalled.map _, ?_⟩
  rcases milder.ends with ⟨y, y', h, h'⟩ | ⟨e, h, h'⟩
  · rw [h] at result
    rw [h'] at result'
    obtain ⟨a, ha⟩ := result
    obtain ⟨a', ha'⟩ := result'
    exact Or.inl ⟨a, a', ha, ha'⟩
  · rw [h] at result
    rw [h'] at result'
    exact Or.inr ⟨e, result.1, result.2, result'.2⟩

/-- A record of these counts. -/
def counted (counts : List Value) : Heap :=
  ⟨#[⟨.ofList [("counts", .array ⟨0⟩)], none⟩], #[counts], #[]⟩

/-- Creates a reading from the record. -/
def createCounted (counts : List Value) (strict : Bool) (diagnostics : Option (List Diagnostic)) :
    Except Fault ModelId × State :=
  (Request.create ⟨1⟩ (some (.record ⟨0⟩))).run ⟨readingSchema, [.record ⟨0⟩]⟩
    ⟨counted counts, ⟨diagnostics, strict, none⟩, []⟩

/-- Two texts, one of which denotes a number. -/
def texts : List Value := [.string "2", .string "two"]

/-- No count is refused in either mode.  Of the two texts the strict run refuses both, and the
lenient one the other. -/
theorem strict_rejects_more_counts :
    createCounted [.null] false none =
        (.ok ⟨0⟩, (createCounted [.null] true none).2.lenient) ∧
      ∃ mild harsh,
        (createCounted texts false (some [])).2.options.diagnostics =
          some ([] ++ mild) ∧
        (createCounted texts true (some [])).2.options.diagnostics =
          some ([] ++ harsh) ∧
        mild.Sublist harsh ∧ mild = [.recorded (.invalidValue (some "counts") "two")] ∧
        harsh = [.recorded (.invalidValue (some "counts") "2"),
          .recorded (.invalidValue (some "counts") "two")] := by
  have free := readingSchema.ruleFree_of_listed (by decide +kernel)
  have known : (Request.create ⟨1⟩ (some (.record ⟨0⟩))).KnownTo readingSchema := by
    show 1 < 2
    decide
  have general := fun counts => strict_rejects_more readingSchema_built free known
    [.record ⟨0⟩] (counted counts) []
  have run : ∀ counts strict diagnostics,
      (Request.create ⟨1⟩ (some (.record ⟨0⟩))).run ⟨readingSchema, [.record ⟨0⟩]⟩
        ⟨counted counts, ⟨diagnostics, strict, none⟩, []⟩ =
      createCounted counts strict diagnostics := fun _ _ _ => rfl
  simp only [run] at general
  have made : (createCounted [.null] true none).1 = .ok ⟨0⟩ := by decide +kernel
  have quiet : (createCounted [.null] true none).2.options.diagnostics = none := by
    decide +kernel
  refine ⟨(general [.null]).1 none ⟨0⟩ made quiet, ?_⟩
  have items : (counted texts).Trees ((counted texts).items ⟨0⟩) [] :=
    .scalar rfl (.scalar rfl .nil)
  have field : (counted texts).Trees ((counted texts).fields ⟨0⟩).values [.array ⟨0⟩] := by
    rw [show ((counted texts).fields ⟨0⟩).values = [.array ⟨0⟩] by decide +kernel]
    exact .array items .nil
  obtain ⟨mild, harsh, hm, hh, sub, -⟩ :=
    (general texts).2 [.record ⟨0⟩, .array ⟨0⟩] (.record rfl field .nil) (by decide) (by decide) []
  have lenient : (createCounted texts false (some [])).2.options.diagnostics =
      some [.recorded (.invalidValue (some "counts") "two")] := by decide +kernel
  have strict : (createCounted texts true (some [])).2.options.diagnostics =
      some [.recorded (.invalidValue (some "counts") "2"),
        .recorded (.invalidValue (some "counts") "two")] := by decide +kernel
  exact ⟨mild, harsh, hm, hh, sub, Option.some.inj (hm.symm.trans lenient),
    Option.some.inj (hh.symm.trans strict)⟩

end Request

end Overlay
