import Overlay.Proofs.Engine.Modes
import Overlay.Proofs.Engine.Standing
import Overlay.Proofs.Engine.Wrapping

/-!
# Results in either mode

A verdict is about collecting mode.  Without hooks, throwing mode gives a result just where
collecting mode gives it without an objection, and leaves the same heap, so a verdict tells what
there is after any run that gave a result.

* `Engine.JudgedFrom.verdict_of_ok`, `Engine.JudgedFrom.ok_of_verdict` : results and verdicts;
* `Engine.JudgedFrom.ends` : how a run ends that collects diagnostics;
* `Engine.create_standing`, `Engine.set_stands` : the models of runs that gave results.
-/

namespace Overlay

namespace Engine

open Heap

variable {s : Schema} {c : Context} {st st' : State} {T cells : List Value}

section Modes

variable {α β : Type} {act : Engine α} {V : Verdict β} {R : α → β → Heap → Prop} {a : α} {b : β}

/-- The computation comes to the verdict, from this heap, where diagnostics are collected. -/
def JudgedFrom (act : Engine α) (c : Context) (st : State) (T : List Value) (V : Verdict β)
    (R : α → β → Heap → Prop) : Prop :=
  ∀ st₀ : State, st₀.heap = st.heap → st₀.options.Gathers st.options.strict none →
    Judged T st₀ V R (act c st₀)

/-- A run that gave a result, in either mode, comes to a verdict that gives one.  If diagnostics are
not collected, there is no objection, and otherwise they are those of the verdict. -/
theorem JudgedFrom.verdict_of_ok (judged : JudgedFrom act c st T V R) (h : Orderly s none act)
    (hc : c.schema = s) (hp : st.options.property = none)
    (run : act c st = (.ok a, st')) :
    ∃ b, V.result = .ok b ∧ (st.options.diagnostics = none → V = pure b) ∧
      (st.options.collects = true → st'.options = st.options.noting V.signalled) ∧
      st.heap.ChangesOnly st'.heap T ∧ R a b st'.heap := by
  -- in collecting mode the verdict is all there is to know
  have gathered : ∀ {st₀ st₁ : State}, Judged T st₀ V R ((.ok a, st₁) : Except Fault α × State) →
      ∃ b, V.result = .ok b ∧ st₁.options = st₀.options.noting V.signalled ∧
        st₀.heap.ChangesOnly st₁.heap T ∧ R a b st₁.heap := by
    intro st₀ st₁ j
    obtain ⟨changes, noted, ends⟩ := j.resolve_left fun e => by cases e
    cases hV : V.result with
    | error e =>
      rw [hV] at ends
      cases ends
    | ok b =>
      rw [hV] at ends
      obtain ⟨a', e, related⟩ := ends
      cases e
      exact ⟨b, rfl, noted, changes, related⟩
  cases hd : st.options.diagnostics with
  | none =>
    have agree := (h.modesAgree hc hp [] hd).ok a (congrArg Prod.fst run)
    have j := judged (st.collecting []) rfl ⟨rfl, rfl, hp⟩
    rw [agree, run] at j
    obtain ⟨b, hV, noted, changes, related⟩ := gathered j
    have quiet : V.signalled = [] := by
      have := congrArg Options.diagnostics noted
      simpa [Options.noting, State.collecting] using this.symm
    refine ⟨b, hV, fun _ => ?_, fun collects => ?_, changes, related⟩
    swap
    · rw [Options.collects, hd] at collects
      cases collects
    obtain ⟨signalled, result⟩ := V
    cases quiet
    cases hV
    rfl
  | some ds =>
    have j := judged st rfl ⟨by simp [Options.collects, hd], rfl, hp⟩
    rw [run] at j
    obtain ⟨b, hV, noted, changes, related⟩ := gathered j
    exact ⟨b, hV, (fun e => by cases e), fun _ => noted, changes, related⟩

/-- If diagnostics are collected, the run records what the verdict says, and ends as it says. -/
theorem JudgedFrom.ends (judged : JudgedFrom act c st T V R) (h : Orderly s none act)
    (hc : c.schema = s) (hp : st.options.property = none) (collects : st.options.collects = true) :
    (act c st).2.options = st.options.noting V.signalled ∧
      match V.result with
      | .error e => (act c st).1 = .error (.error e)
      | .ok b => ∃ a, (act c st).1 = .ok a ∧ R a b (act c st).2.heap :=
  ((judged st rfl ⟨collects, rfl, hp⟩).resolve_left (h.keeps hc hp).1).2

theorem JudgedFrom.collected (judged : JudgedFrom act c st T V R) (h : Orderly s none act)
    (hc : c.schema = s) (hp : st.options.property = none) (collects : st.options.collects = true) :
    match V.result with
    | .error e => (act c st).1 = .error (.error e)
    | .ok b => ∃ a st', act c st = (.ok a, st') ∧ st'.options = st.options.noting V.signalled ∧
        R a b st'.heap := by
  obtain ⟨noted, ends⟩ := judged.ends h hc hp collects
  cases hV : V.result with
  | error e =>
    rw [hV] at ends
    exact ends
  | ok b =>
    rw [hV] at ends
    obtain ⟨a, ha, related⟩ := ends
    exact ⟨a, _, Prod.ext ha rfl, noted, related⟩

/-- If the verdict has no objection, the run gives a result in either mode. -/
theorem JudgedFrom.ok_of_verdict (judged : JudgedFrom act c st T (pure b) R)
    (h : Orderly s none act) (hc : c.schema = s) (hp : st.options.property = none) :
    ∃ a st', act c st = (.ok a, st') ∧ st.heap.ChangesOnly st'.heap T ∧ R a b st'.heap := by
  suffices ok : ∃ a st', act c st = (.ok a, st') by
    obtain ⟨a, st', run⟩ := ok
    obtain ⟨b', e, -, -, changes, related⟩ := judged.verdict_of_ok h hc hp run
    cases e
    exact ⟨a, st', run, changes, related⟩
  have gathered : ∀ st₀ : State, st₀.options.property = none →
      Judged T st₀ (pure b) R (act c st₀) → ∃ a, (act c st₀).1 = .ok a ∧
        (act c st₀).2.options = st₀.options := by
    intro st₀ hp₀ j
    obtain ⟨-, noted, a, ha, -⟩ := j.resolve_left (h.keeps hc hp₀).1
    exact ⟨a, ha, noted.trans (Options.noting_nil _)⟩
  cases hd : st.options.diagnostics with
  | some ds =>
    obtain ⟨a, ha, -⟩ := gathered st hp (judged st rfl ⟨by simp [Options.collects, hd], rfl, hp⟩)
    exact ⟨a, _, Prod.ext ha rfl⟩
  | none =>
    have agree := h.modesAgree hc hp [] hd
    obtain ⟨a, ha, same⟩ := gathered (st.collecting []) hp
      (judged (st.collecting []) rfl ⟨rfl, rfl, hp⟩)
    rcases ht : act c st with ⟨fault | a', st'⟩
    · cases fault with
      | exhausted => exact absurd (congrArg Prod.fst ht) (h.keeps hc hp).1
      | error e =>
        by_cases he : e.isRecordable = true
        · obtain ⟨more, hm⟩ := agree.recorded e (congrArg Prod.fst ht) he
          rw [same] at hm
          simp [State.collecting] at hm
        · have := agree.raised e (congrArg Prod.fst ht) (Bool.eq_false_iff.2 he)
          rw [this] at ha
          cases ha
    · exact ⟨a', st', rfl⟩

end Modes

/-! ### Creating and writing -/

variable {t : TypeId} {m : ModelId} {r : RecordId} {v : Value} {x y : Tree} {fields : Entries}

/-- Creating a model of a fresh plain tree comes to the verdict on the tree. -/
theorem create_judgedFrom (hs : s.Stratified) (free : s.Free (.model t)) (hc : c.schema = s)
    {data : Option Value} (trees : st.heap.Trees [data.getD .undefined] cells)
    (nodup : cells.Nodup) (held : ∀ v ∈ cells, st.heap.Holds v)
    (sh : st.heap.Shows (· ∈ cells) [data.getD .undefined] [x]) :
    JudgedFrom (create t data) c st cells (Tree.constructed s st.options.strict none t x)
      (fun m y h => (s.type t).isStructured = true → Standing s t m y h) := by
  subst hc
  intro st₀ heap g
  obtain ⟨d, hd⟩ := c.schema.budget_eq_succ 0
  show Judged cells st₀ _ _ (Engine.perform (c.schema.budget 0) (.create t data) c st₀)
  rw [hd]
  rw [← heap] at trees held sh
  exact construct_tree (perform_judges hs _ d) hs free rfl g trees nodup held sh

section Created

variable (hs : s.Stratified) (free : s.Free (.model t)) (hc : c.schema = s)
  (hp : st.options.property = none)

include hs free hc hp

/-- A model that was created of a fresh plain tree stands for what the verdict says. -/
theorem create_standing (hstr : (s.type t).isStructured = true) {data : Option Value}
    (trees : st.heap.Trees [data.getD .undefined] cells) (nodup : cells.Nodup)
    (held : ∀ v ∈ cells, st.heap.Holds v)
    (sh : st.heap.Shows (· ∈ cells) [data.getD .undefined] [x])
    (run : create t data c st = (.ok m, st')) :
    ∃ y, (Tree.constructed s st.options.strict none t x).result = .ok y ∧
      (st.options.diagnostics = none →
        Tree.constructed s st.options.strict none t x = pure y) ∧
      (st.options.collects = true → st'.options =
        st.options.noting (Tree.constructed s st.options.strict none t x).signalled) ∧
      Standing s t m y st'.heap := by
  obtain ⟨y, hy, quiet, noted, -, standing⟩ :=
    (create_judgedFrom hs free hc trees nodup held sh).verdict_of_ok
      (create_orderly hs (Schema.index_lt_of_isStructured hstr) free.calm data) hc hp run
  exact ⟨y, hy, quiet, noted, standing hstr⟩

/-- If the verdict on a fresh plain tree has no objection, a model is created of it, and stands for
what the verdict says. -/
theorem create_made (hstr : (s.type t).isStructured = true) {data : Option Value}
    (trees : st.heap.Trees [data.getD .undefined] cells) (nodup : cells.Nodup)
    (held : ∀ v ∈ cells, st.heap.Holds v)
    (sh : st.heap.Shows (· ∈ cells) [data.getD .undefined] [x])
    (verdict : Tree.constructed s st.options.strict none t x = pure y) :
    ∃ m st', create t data c st = (.ok m, st') ∧ Standing s t m y st'.heap := by
  have judged := create_judgedFrom (t := t) hs free hc trees nodup held sh
  rw [verdict] at judged
  obtain ⟨m, st', run, -, standing⟩ := judged.ok_of_verdict
    (create_orderly hs (Schema.index_lt_of_isStructured hstr) free.calm data) hc hp
  exact ⟨m, st', run, standing hstr⟩

theorem create_bare (ht : t.index < s.models.size) (hstr : (s.type t).isStructured = false)
    (collects : st.options.collects = true) {data : Option Value}
    (run : create t data c st = (.ok m, st')) :
    st'.options = st.options ∧ st'.heap.type m = t := by
  subst hc
  have judged : JudgedFrom (create t data) c st []
      (if (c.schema.type t).allowsInstances then pure ()
        else .raise (.noInstances (c.schema.type t).name)) (fun _ _ _ => True) := by
    intro st₀ _ _
    obtain ⟨d, hd⟩ := c.schema.budget_eq_succ 0
    show Judged [] st₀ _ _ (Engine.perform (c.schema.budget 0) (.create t data) c st₀)
    rw [hd]
    exact constructBare_judged free rfl hstr data
  obtain ⟨_, -, -, noted, -⟩ :=
    judged.verdict_of_ok (create_orderly hs ht free.calm data) rfl hp run
  refine ⟨(noted collects).trans ?_, create_type run⟩
  split <;> exact Options.noting_nil _

theorem create_filled (hstr : (s.type t).isStructured = true)
    (allowed : (s.type t).allowsInstances = true) {F : Value → Prop} {es : Entries}
    (held : st.heap.Holds (.record r)) (hT : .record r ∉ T) (hF : ¬ F (.record r))
    (keys : (st.heap.fields r).keys = es.keys)
    (o : Offered s st.heap F ((st.heap.fields r).keys.map (s.type t).slot?)
      (st.heap.fields r).values (es.map Prod.snd) T)
    (admitted : Tree.admitted s st.options.strict t es [] es = pure fields) :
    ∃ m st', create t (some (.record r)) c st = (.ok m, st') ∧
      st.heap.ChangesOnly st'.heap (.record r :: T) ∧ Filled s F T t r m fields st'.heap := by
  subst hc
  have judged : JudgedFrom (create t (some (.record r))) c st (.record r :: T) (pure fields)
      (Filled c.schema F T t r) := by
    intro st₀ heap g
    obtain ⟨d, hd⟩ := c.schema.budget_eq_succ 0
    show Judged _ st₀ _ _ (Engine.perform (c.schema.budget 0) (.create t _) c st₀)
    rw [hd]
    rw [← heap] at held keys o
    have := construct_judged (perform_judges hs _ d) hs free rfl hstr g held hT hF keys o
    rwa [allowed, if_pos rfl, admitted] at this
  exact judged.ok_of_verdict
    (create_orderly hs (Schema.index_lt_of_isStructured hstr) free.calm _) rfl hp

end Created

/-- Writing a property comes to the verdict on the tree that is written.  Its stored form goes into
the model's record, after nothing but the tree has changed. -/
theorem setProperty_wroteFrom (hs : s.Stratified) (hc : c.schema = s) {p : Property}
    (free : s.FreeProperty p) (there : st.heap.Holds (.model m))
    (data : st.heap.data m = .record r) (trees : st.heap.Trees [v] cells) (nodup : cells.Nodup)
    (held : ∀ u ∈ cells, st.heap.Holds u) (sh : st.heap.Shows (· ∈ cells) [v] [x]) :
    JudgedFrom (setProperty m p v) c st (.record r :: cells)
      (Tree.stored s st.options.strict p.slot x)
      (fun _ y h => ∃ w h', st.heap.ChangesOnly h' cells ∧
        Settled s (fun _ => False) cells p.slot v x w y h' ∧ h = h'.insert r p.storageKey w) := by
  subst hc
  intro st₀ heap g
  rw [← heap] at there data trees held sh ⊢
  obtain ⟨xs, o⟩ := Offered.of_trees c.schema trees nodup held [some p.slot] rfl
  obtain rfl := o.shows.unique sh
  obtain ⟨mid, judged, written⟩ := (perform_judges hs st.options.strict
    (c.schema.budget p.weight)).set (c := c) (m := m) rfl free g o
  have run : setProperty m p v c st₀ = wrote m p.storageKey mid := written
  rw [run]
  exact wrote_judged p.storageKey judged there data

theorem setProperty_judgedFrom (hs : s.Stratified) (free : s.Free (.model t)) (hc : c.schema = s)
    {before : Heap} (a : Stands s t r m fields before) (more : before.Extends st.heap)
    (trees : st.heap.Trees [v] cells) (nodup : cells.Nodup)
    (fresh : ∀ u ∈ cells, st.heap.Holds u ∧ ¬ before.Holds u)
    (sh : st.heap.Shows (· ∈ cells) [v] [x]) {name : String} {p : Property}
    (hp : (s.type t).property? name = some p) :
    JudgedFrom (setProperty m p v) c st (.record r :: cells)
      (Tree.stored s st.options.strict p.slot x)
      (fun _ y h => Stands s t r m (Entries.put p.storageKey y fields) h) := by
  have wrote := setProperty_wroteFrom hs hc (free.property hs hp) (a.model.grows more.grows)
    ((more.grows.data_eq a.model).trans a.data) trees nodup (fun u hu => (fresh u hu).1) sh
  intro st₀ heap g
  refine (wrote st₀ heap g).mono (fun _ h => Or.inl h) ?_
  rintro _ y h - ⟨w, h', d, settled, rfl⟩
  refine a.write (fun keyed => ?_) ((more.changesOnly cells).trans d fun u hu => Or.inl hu)
    (fun u hu => ⟨(fresh u hu).1.grows d.grows, (fresh u hu).2⟩) settled
  exact ModelType.WellKeyed.found_by_storageKey keyed.wellKeyed (hs.placedAt t) hp

/-- A model that stands for fields does so after a property was set to a fresh plain tree. -/
theorem set_stands (hs : s.Stratified) (free : s.Free (.model t)) (hc : c.schema = s)
    (ho : st.options.property = none) {before : Heap} (a : Stands s t r m fields before)
    (supply : before.Supplies st.heap [v]) {name : String}
    (run : set m name v c st = (.ok (), st')) :
    ∃ p y, (s.type t).property? name = some p ∧
      Stands s t r m (Entries.put p.storageKey y fields) st'.heap := by
  obtain ⟨cells, trees, nodup, fresh⟩ := supply.trees
  obtain ⟨x, sh⟩ := trees.shows_one
  subst hc
  have type : st.heap.type m = t := (supply.more.grows.type_eq a.model).trans a.type
  cases hp : (c.schema.type t).property? name with
  | none =>
    unfold set at run
    rw [← type] at hp
    rw [bind_run, property_missing hp] at run
    cases run
  | some p =>
    rw [set_declared (type ▸ hp)] at run
    obtain ⟨y, -, -, -, -, stands⟩ := (setProperty_judgedFrom hs free rfl a supply.more trees nodup
      fresh sh hp).verdict_of_ok (setProperty_orderly hs (free.property hs hp).calmBelow m v) rfl ho
        run
    exact ⟨p, y, rfl, stands⟩

end Engine

end Overlay
