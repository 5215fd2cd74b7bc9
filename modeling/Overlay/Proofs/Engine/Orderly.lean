import Overlay.Proofs.Engine.Runs
import Overlay.Proofs.Schema.Built

/-!
# Orderly computations

Without hooks, coercing, wrapping, constructing and writing are composed of a few kinds of steps:
they read the schema and the heap, change the heap, signal errors, and run parts with another
property at hand.  `Engine.Orderly` is that composition.  It tracks the property at hand, on which
the coercion of arrays depends, and it has no step for running out of depth.

* `Engine.Orderly.keeps` : an orderly computation ends, has the property it started with at hand
  again, and only appends to the diagnostics;
* `Engine.writeProperty_orderly`, `Engine.construct_orderly`, `Engine.wrapUnder_orderly` : without
  hooks an operation is orderly if those that it has done are.
-/

namespace Overlay

/-- The options after a computation that bad data does not stop: the same strictness and property
at hand, and diagnostics added at the end if they are collected. -/
structure Options.Continue (before after : Options) : Prop where
  /-- The strictness is the same. -/
  strict : after.strict = before.strict
  /-- The property at hand is the same. -/
  property : after.property = before.property
  /-- Nothing is collected unless it was before. -/
  silent : before.diagnostics = none → after.diagnostics = none
  /-- Diagnostics are only appended. -/
  appended : ∀ ds, before.diagnostics = some ds → ∃ more, after.diagnostics = some (ds ++ more)

namespace Options.Continue

theorem refl (o : Options) : o.Continue o := ⟨rfl, rfl, id, fun ds h => ⟨[], by simp [h]⟩⟩

theorem trans {o₁ o₂ o₃ : Options} (h₁ : o₁.Continue o₂) (h₂ : o₂.Continue o₃) :
    o₁.Continue o₃ where
  strict := h₂.strict.trans h₁.strict
  property := h₂.property.trans h₁.property
  silent := fun h => h₂.silent (h₁.silent h)
  appended := fun ds h => by
    obtain ⟨more, h'⟩ := h₁.appended ds h
    obtain ⟨more', h''⟩ := h₂.appended _ h'
    exact ⟨more ++ more', by rw [h'', List.append_assoc]⟩

end Options.Continue

namespace Engine

/-- A result always comes with another diagnostic. -/
def Objects {α : Type} (act : Engine α) : Prop :=
  ∀ c st a, (act c st).1 = .ok a → (act c st).2.options.diagnostics ≠ st.options.diagnostics

/-- A computation composed of orderly steps, under a schema and with a property at hand. -/
inductive Orderly (s : Schema) : Option Property → ∀ {α : Type}, Engine α → Prop
  /-- It gives a result. -/
  | pure {p : Option Property} {α : Type} (a : α) : Orderly s p (pure a : Engine α)
  /-- It does one thing after another. -/
  | bind {p : Option Property} {α β : Type} {act : Engine α} {next : α → Engine β}
      (first : Orderly s p act) (rest : ∀ a, Orderly s p (next a)) : Orderly s p (act >>= next)
  /-- It looks at the types. -/
  | schema {p : Option Property} {α : Type} {next : Schema → Engine α}
      (rest : Orderly s p (next s)) : Orderly s p (Engine.schema >>= next)
  /-- It looks at the shared data. -/
  | heap {p : Option Property} : Orderly s p Engine.heap
  /-- It looks at the values in use. -/
  | roots {p : Option Property} : Orderly s p Engine.roots
  /-- It looks at the options, but not at the diagnostics.  If strictness makes a difference, it
  makes it object. -/
  | options {p : Option Property} {α : Type} {next : Options → Engine α}
      (blind : ∀ o ds, next { o with diagnostics := ds } = next o)
      (mild : ∀ o, o.strict = true → next { o with strict := false } = next o ∨ Objects (next o))
      (rest : ∀ o, o.property = p → Orderly s p (next o)) : Orderly s p (Engine.options >>= next)
  /-- It stops with an error that cannot be recorded. -/
  | raise {p : Option Property} {α : Type} {e : Error} (he : e.isRecordable = false) :
      Orderly s p (raise e : Engine α)
  /-- It signals an error. -/
  | signal {p : Option Property} (e : Error) : Orderly s p (signal e)
  /-- It changes the shared data. -/
  | changeHeap {p : Option Property} (f : Heap → Heap) : Orderly s p (changeHeap f)
  /-- It adds a cell to the shared data. -/
  | allocate {p : Option Property} {α : Type} (f : Heap → α × Heap) : Orderly s p (allocate f)
  /-- It runs a part with another property at hand. -/
  | concerning {p : Option Property} {α : Type} {act : Engine α} (q : Property)
      (inner : Orderly s (some q) act) : Orderly s p (concerning q act)
  /-- It runs a part with more values in use. -/
  | holding {p : Option Property} {α : Type} {act : Engine α} (vs : List Value)
      (inner : Orderly s p act) : Orderly s p (holding vs act)

/-! ### What an orderly computation keeps -/

namespace Orderly

variable {s : Schema} {p : Option Property} {α : Type} {act : Engine α}

/-- An orderly computation ends, and its options go on from where they were. -/
theorem keeps (h : Orderly s p act) {c : Context} (hc : c.schema = s) {st : State}
    (hp : st.options.property = p) :
    (act c st).1 ≠ .error .exhausted ∧ st.options.Continue (act c st).2.options := by
  have ended : ∀ {β : Type} (b : β), (.ok b : Except Fault β) ≠ .error .exhausted := by
    intro β b h
    cases h
  have stopped : ∀ {β : Type} (e : Error),
      (.error (.error e) : Except Fault β) ≠ .error .exhausted := by
    intro β e h
    cases h
  induction h generalizing c st with
  | pure a => exact ⟨ended a, .refl _⟩
  | @bind p α β act next _ _ ih₁ ih₂ =>
    obtain ⟨hne, hk⟩ := ih₁ hc hp
    rw [bind_run]
    split
    · rename_i a st' he
      rw [he] at hk
      obtain ⟨hne', hk'⟩ := ih₂ a hc (hk.property.trans hp)
      exact ⟨hne', hk.trans hk'⟩
    · rename_i fault st' he
      rw [he] at hne hk
      exact ⟨fun e => hne (congrArg Except.error (Except.error.inj e)), hk⟩
  | @schema p α next _ ih =>
    have := ih hc hp
    rw [← hc] at this
    exact this
  | heap => exact ⟨ended _, .refl _⟩
  | roots => exact ⟨ended _, .refl _⟩
  | options _ _ _ ih => exact ih st.options hp hc hp
  | raise he => exact ⟨stopped _, .refl _⟩
  | signal e =>
    unfold Engine.signal Options.record?
    cases hd : st.options.diagnostics with
    | none => exact ⟨stopped e, .refl _⟩
    | some ds =>
      by_cases he : e.isRecordable
      · simp only [he, if_true]
        refine ⟨ended _, rfl, rfl, fun h => ?_, fun ds' h => ?_⟩
        · cases hd.symm.trans h
        · cases hd.symm.trans h
          exact ⟨_, rfl⟩
      · simp only [he]
        exact ⟨stopped e, .refl _⟩
  | changeHeap f => exact ⟨ended _, .refl _⟩
  | allocate f => exact ⟨ended _, .refl _⟩
  | @concerning p α act q _ ih =>
    obtain ⟨hne, hk⟩ := @ih c hc { st with options := { st.options with property := some q } } rfl
    exact ⟨hne, hk.strict, rfl, hk.silent, hk.appended⟩
  | holding vs _ ih => exact ih (c := { c with held := vs ++ c.held }) hc hp

end Orderly

/-! ### The operations, given orderly ones -/

section Bodies

variable {s : Schema} {p : Option Property} {perform : Perform}

theorem signal_objects (e : Error) : Objects (signal e) := by
  intro c st a h
  unfold signal Options.record? at h ⊢
  cases hd : st.options.diagnostics with
  | none =>
    rw [hd] at h
    cases h
  | some ds =>
    rw [hd] at h
    by_cases he : e.isRecordable = true <;> simp [he] at h ⊢

theorem invalid_objects (v : Value) : Objects (invalid v) := by
  intro c st a
  let property := st.options.property.map Property.name
  exact signal_objects (.invalidValue property (st.heap.text v)) c st a

theorem invalid_orderly (v : Value) : Orderly s p (invalid v) :=
  .options (fun _ _ => rfl) (fun _ _ => Or.inl rfl) fun _ _ => .bind .heap fun _ => .signal _

theorem wrapper?_orderly (r : RecordId) : Orderly s p (wrapper? r) := by
  refine .bind .heap fun h => ?_
  split
  · exact .pure _
  · exact .bind .roots fun _ => .pure _

theorem instance?_orderly (t : TypeId) (v : Value) : Orderly s p (instance? t v) := by
  unfold instance? isInstance
  split
  · simp only [bind_assoc]
    refine .schema (.bind .heap fun h => ?_)
    rw [pure_bind]
    split <;> exact .pure _
  · exact .pure _

theorem denote_orderly (form : Heap → Constant → Value) (cs : Constants) (t : TypeId) (v : Value) :
    Orderly s p (denote form cs t v) := by
  unfold denote
  split
  · exact .pure _
  · refine .bind .heap fun h => .schema ?_
    split
    · exact .pure _
    · exact invalid_orderly v

theorem checkConstant_orderly (cs : Constants) (m : ModelId) :
    Orderly s p (checkConstant cs m) := by
  refine .bind .heap fun h => ?_
  split
  · exact .bind (invalid_orderly _) fun _ => .pure _
  · exact .pure _

/-! ### Coercion -/

theorem coerceScalar_orderly (b : Builtin) (v : Value) : Orderly s p (coerceScalar b v) := by
  unfold coerceScalar
  split
  · exact .pure _
  · refine .options (fun _ _ => rfl) (fun o ho => Or.inr ?_) fun o _ => ?_
    · rw [if_pos ho]
      exact invalid_objects v
    · split
      · exact invalid_orderly v
      · split
        · exact .pure _
        · exact invalid_orderly v

theorem coerceInteger_orderly (v : Value) : Orderly s p (coerceInteger v) := by
  refine .bind (coerceScalar_orderly _ _) fun w => ?_
  split
  · split
    · exact .pure _
    · exact invalid_orderly v
  · exact .pure _

theorem replaceItems_orderly {action : Value → Engine Value} (h : ∀ v, Orderly s p (action v))
    (a : ArrayId) (i count : Nat) : Orderly s p (replaceItems action a i count) := by
  induction count generalizing i with
  | zero => exact .pure _
  | succ count ih =>
    exact .bind .heap fun _ => .bind (h _) fun _ => .bind (.changeHeap _) fun _ => ih _

/-- The coercion of an array depends on the property at hand: its elements are coerced for the
element property of that. -/
theorem coerceArray_orderly {stored : Property → Value → Engine Value}
    (h : ∀ q, p.bind (·.elementProperty?) = some q → ∀ v, Orderly s p (stored q v)) (v : Value) :
    Orderly s p (coerceArray stored v) := by
  unfold coerceArray
  split
  · exact .pure _
  · exact .pure _
  · refine .options (fun _ _ => rfl) (fun _ _ => Or.inl rfl) fun o ho => ?_
    rw [ho]
    split
    · exact .pure _
    · rename_i q hq
      exact .bind .heap fun _ => .bind (.holding _ (replaceItems_orderly (h q hq) _ _ _))
        fun _ => .pure _
  · exact invalid_orderly v

theorem coerceBuiltin_orderly {stored : Property → Value → Engine Value}
    (h : ∀ q, p.bind (·.elementProperty?) = some q → ∀ v, Orderly s p (stored q v)) (b : Builtin)
    (v : Value) : Orderly s p (coerceBuiltin stored b v) := by
  cases b with
  | integer => exact coerceInteger_orderly v
  | object => exact .pure _
  | array => exact coerceArray_orderly h v
  | string => exact coerceScalar_orderly _ v
  | number => exact coerceScalar_orderly _ v
  | boolean => exact coerceScalar_orderly _ v
  | date => exact coerceScalar_orderly _ v

theorem coerceUnder_orderly {t : TypeId} (ht : (s.type t).Calm) (v : Value) :
    Orderly s p (coerceUnder perform t v) := by
  refine .schema ?_
  split
  · rename_i rule hr
    obtain ⟨cs, rfl⟩ := ht.coerce rule hr
    exact denote_orderly _ cs t v
  · exact .pure _

/-! ### Writing -/

theorem adapt_orderly {q : Property} (h : ∀ v, Orderly s p (perform (.coerce q.type v)))
    (v : Value) : Orderly s p (adapt perform q v) := by
  unfold adapt
  split
  · refine .bind .heap fun h' => .schema ?_
    split
    · exact .pure _
    · exact h _
  · exact h v

theorem settle_orderly {q : Property}
    (h : s.wraps q.type = true → ∀ v, Orderly s p (perform (.wrap q.type v))) (v : Value) :
    Orderly s p (settle perform q v) := by
  refine .schema ?_
  split
  · exact .pure _
  · rename_i hw
    simp only [Bool.or_eq_true, Bool.not_eq_true', not_or, Bool.not_eq_false] at hw
    refine .bind (.holding _ (h hw.2 v)) fun w => ?_
    split
    · exact .pure _
    · exact .bind .heap fun _ => .pure _

theorem stored_orderly {q : Property}
    (hc : ∀ v, Orderly s (some q) (perform (.coerce q.type v)))
    (hw : s.wraps q.type = true → ∀ v, Orderly s (some q) (perform (.wrap q.type v))) (v : Value) :
    Orderly s p (stored perform q v) :=
  .concerning q (.bind (adapt_orderly hc v) fun _ => settle_orderly hw _)

theorem writeProperty_orderly {q : Property} (hq : q.setter = none)
    (hc : ∀ v, Orderly s (some q) (perform (.coerce q.type v)))
    (hw : s.wraps q.type = true → ∀ v, Orderly s (some q) (perform (.wrap q.type v)))
    (m : ModelId) (v : Value) : Orderly s p (writeProperty perform m q v) := by
  refine .holding _ (.bind (.concerning q (adapt_orderly hc v)) fun w => ?_)
  rw [hq]
  refine .bind (.concerning q (settle_orderly hw w)) fun u => .bind .heap fun h => ?_
  split
  · exact .changeHeap _
  · exact .pure _

/-! ### Constructing and wrapping -/

theorem recordFor_orderly (data : Option Value) : Orderly s p (recordFor data) := by
  unfold recordFor
  split
  · exact .pure _
  · exact .allocate _
  · exact .allocate _
  · exact .bind (invalid_orderly _) fun _ => .allocate _

theorem admitEntries_orderly {type : ModelType} {m : ModelId}
    (h : ∀ key q, type.property? key = some q → ∀ v, Orderly s p (perform (.set m q v)))
    (es : List (String × Value)) : Orderly s p (admitEntries perform m type es) := by
  induction es with
  | nil => exact .pure _
  | cons e es ih =>
    obtain ⟨key, v⟩ := e
    refine .bind (.holding _ ?_) fun _ => ih
    unfold admitEntry
    split
    · exact .pure _
    · split
      · rename_i q hq
        exact h key q hq v
      · split
        · exact .pure _
        · exact .bind (.signal _) fun _ => .pure _

theorem runInit_orderly {rules : List Rule} (h : ∀ rule ∈ rules, rule.OfConstants) (m : ModelId) :
    Orderly s p (runInit perform m rules) := by
  induction rules with
  | nil => exact .pure _
  | cons rule rules ih =>
    obtain ⟨cs, rfl⟩ := h rule List.mem_cons_self
    exact .bind (checkConstant_orderly cs m) fun _ =>
      ih fun rule hr => h rule (List.mem_cons_of_mem _ hr)

theorem construct_orderly {t : TypeId} (hr : ∀ rule ∈ s.initRules t, rule.OfConstants)
    (h : ∀ key q, (s.type t).property? key = some q →
      ∀ m v, Orderly s p (perform (.set m q v))) (data : Option Value) :
    Orderly s p (construct perform t data) := by
  have finish : ∀ m : ModelId, Orderly s p (do
      let s ← Engine.schema
      runInit perform m (s.initRules t)
      return m) := fun m =>
    .schema (.bind (runInit_orderly hr m) fun _ => .pure _)
  refine .schema ?_
  dsimp only
  split
  · exact .raise rfl
  · split
    · refine .bind (recordFor_orderly data) fun r => .bind (.allocate _) fun m =>
        .bind .heap fun _ => .bind ?_ fun _ => .bind (.changeHeap _) fun _ =>
        .bind (.pure _) fun _ => finish _
      exact admitEntries_orderly (fun key q hq v => h key q hq m v) _
    · exact .bind (.allocate _) fun m => finish m

theorem release_orderly (m : ModelId) : Orderly s p (release m) := by
  refine .bind .heap fun h => ?_
  dsimp only
  split
  · exact .bind (.changeHeap _) fun _ => .pure _
  · exact .pure _

theorem wrapData_orderly {t : TypeId} (h : ∀ data, Orderly s p (perform (.create t data)))
    (v : Value) : Orderly s p (wrapData perform t v) := by
  have made : Orderly s p (do return Value.model (← perform (.create t (some v)))) :=
    .bind (h _) fun _ => .pure _
  refine .schema ?_
  dsimp only
  split
  · exact .pure _
  · split
    · exact .raise rfl
    · split
      · exact invalid_orderly v
      · split
        · refine .bind (.holding _ (wrapper?_orderly _)) fun existing => ?_
          cases existing with
          | some m => exact .pure _
          | none => exact made
        · rw [pure_bind]
          exact made

theorem wrapStandard_orderly {t : TypeId} (ht : (s.type t).Calm)
    (h : ∀ data, Orderly s p (perform (.create t data))) (v : Value) :
    Orderly s p (wrapStandard perform t v) := by
  refine .bind (instance?_orderly t v) fun existing => ?_
  split
  · exact .pure _
  · refine .bind (coerceUnder_orderly ht v) fun w => ?_
    split
    · exact .pure _
    · refine .bind (instance?_orderly t w) fun existing => ?_
      split
      · exact .pure _
      · split
        · exact .bind (release_orderly _) fun _ => wrapData_orderly h _
        · exact .bind (.pure _) fun _ => wrapData_orderly h _

theorem wrapUnder_orderly {t : TypeId} (ht : (s.type t).Calm)
    (h : ∀ data, Orderly s p (perform (.create t data))) (v : Value) :
    Orderly s p (wrapUnder perform t v) := by
  refine .schema ?_
  split
  · rename_i rule hr
    obtain ⟨cs, rfl⟩ := ht.wrap rule hr
    exact denote_orderly _ cs t v
  · exact wrapStandard_orderly ht h v

end Bodies

end Engine

end Overlay
