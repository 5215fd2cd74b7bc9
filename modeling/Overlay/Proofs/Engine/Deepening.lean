import Overlay.Proofs.Engine.Runs

/-!
# The bound on nesting

An operation is allowed to nest others so many deep, and a run that meets the bound ends exhausted.
A run that does not meet it ends with the same result and in the same state under every greater
bound, hooks or not: the bound decides whether a run ends, never how.

* `Engine.Deepens` : where one computation ends without meeting a bound, another ends alike;
* `Engine.perform_deepens` : **an operation that ends within a bound ends alike within a greater**.
-/

namespace Overlay.Engine

variable {α β : Type}

/-- Where the one computation ends without meeting a bound, the other one ends alike. -/
def Deepens (act act' : Engine α) : Prop :=
  ∀ c st, (act c st).1 ≠ .error .exhausted → act' c st = act c st

namespace Deepens

variable {act act' : Engine α} {next next' : α → Engine β}

theorem refl (act : Engine α) : Deepens act act := fun _ _ _ => rfl

theorem exhausted (act : Engine α) : Deepens Engine.exhausted act := fun _ _ h => absurd rfl h

theorem bind (first : Deepens act act') (further : ∀ a, Deepens (next a) (next' a)) :
    Deepens (act >>= next) (act' >>= next') := by
  intro c st h
  rw [bind_run] at h ⊢
  rw [bind_run]
  rcases run : act c st with ⟨result, st'⟩
  rw [run] at h
  cases result with
  | error fault =>
    have ends : (act c st).1 ≠ .error .exhausted := by
      rw [run]
      rintro ⟨⟩
      exact h rfl
    rw [first c st ends, run]
  | ok a =>
    have ends : (act c st).1 ≠ .error .exhausted := by
      rw [run]
      nofun
    rw [first c st ends, run]
    exact further a c st' h

theorem after (act : Engine α) (further : ∀ a, Deepens (next a) (next' a)) :
    Deepens (act >>= next) (act >>= next') := .bind (.refl act) further

theorem andThen (first : Deepens act act') (next : α → Engine β) :
    Deepens (act >>= next) (act' >>= next) := .bind first fun _ => .refl _

theorem holding (h : Deepens act act') (vs : List Value) :
    Deepens (Engine.holding vs act) (Engine.holding vs act') :=
  fun c => h { c with held := vs ++ c.held }

theorem concerning (h : Deepens act act') (p : Property) :
    Deepens (Engine.concerning p act) (Engine.concerning p act') := by
  intro c st ends
  unfold Engine.concerning at ends ⊢
  rw [h c _ ends]

theorem apart (h : Deepens act act') : Deepens (Engine.apart act) (Engine.apart act') := by
  intro c st ends
  unfold Engine.apart at ends ⊢
  rw [h c _ ends]

end Deepens

/-! ### The operations, given deeper ones -/

section Bodies

variable {perform perform' : Perform}
  (h : ∀ {α : Type} (op : Operation α), Deepens (perform op) (perform' op))

include h

/-! #### Hooks -/

theorem runAction_deepens (scene : Scene) (action : Action) (acc : Value) :
    Deepens (runAction perform scene action acc) (runAction perform' scene action acc) := by
  cases action
  case get name =>
    unfold runAction
    dsimp only
    split
    · exact .holding (.after _ fun p => h (.get _ p)) _
    · exact .refl _
  case set name =>
    unfold runAction
    dsimp only
    split
    · exact .andThen (.holding (.after _ fun p => h (.set _ p acc)) _) _
    · exact .refl _
  case create =>
    unfold runAction
    dsimp only
    split
    · exact .andThen (h _) _
    · exact .refl _
  case coerce t => exact h (.coerce t acc)
  case wrap t => exact h (.wrap t acc)
  case call name =>
    unfold runAction
    dsimp only
    split
    · exact .holding (h _) _
    · exact .refl _
  case require name =>
    unfold runAction
    dsimp only
    split
    · exact .andThen (.holding (.after _ fun p => h (.get _ p)) _) _
    · exact .refl _
  all_goals exact .refl _

theorem runHook_deepens (scene : Scene) (hook : Hook) (v : Value) :
    Deepens (runHook perform scene hook v) (runHook perform' scene hook v) := by
  have actions : ∀ (hook : Hook) (v : Value),
      Deepens (runActions perform scene hook v) (runActions perform' scene hook v) := by
    intro hook
    induction hook with
    | nil => exact fun v => .refl _
    | cons action hook ih =>
      exact fun v => .bind (.holding (runAction_deepens h scene action v) _) fun w => ih w
  unfold runHook
  split
  · exact actions hook v
  · exact .apart (actions hook v)

theorem runRule_deepens (constants : Constants → TypeId → Value → Engine Value) (t : TypeId)
    (v : Value) (rule : Rule) :
    Deepens (runRule perform constants t v rule) (runRule perform' constants t v rule) := by
  cases rule with
  | hook actions => exact runHook_deepens h _ actions v
  | constants cs => exact .refl _

theorem coerceUnder_deepens (t : TypeId) (v : Value) :
    Deepens (coerceUnder perform t v) (coerceUnder perform' t v) := by
  refine .after _ fun s => ?_
  split
  · exact runRule_deepens h _ t v _
  · exact .refl _

/-! #### Reading and writing -/

theorem adapt_deepens (p : Property) (v : Value) :
    Deepens (adapt perform p v) (adapt perform' p v) := by
  unfold adapt
  split
  · refine .after _ fun h' => .after _ fun s => ?_
    split
    · exact .refl _
    · exact h _
  · exact h _

theorem settle_deepens (p : Property) (v : Value) :
    Deepens (settle perform p v) (settle perform' p v) := by
  refine .after _ fun s => ?_
  split
  · exact .refl _
  · exact .andThen (.holding (h _) _) _

theorem stored_deepens (p : Property) (v : Value) :
    Deepens (stored perform p v) (stored perform' p v) :=
  .concerning (.bind (adapt_deepens h p v) fun w => settle_deepens h p w) p

theorem writeProperty_deepens (m : ModelId) (p : Property) (v : Value) :
    Deepens (writeProperty perform m p v) (writeProperty perform' m p v) := by
  refine .holding (.bind (.concerning (adapt_deepens h p v) p) fun w => ?_) _
  split
  · exact .andThen (runHook_deepens h _ _ w) _
  · exact .andThen (.concerning (settle_deepens h p w) p) _

theorem represent_deepens (t : TypeId) (v : Value) :
    Deepens (represent perform t v) (represent perform' t v) := by
  refine .after _ fun s => ?_
  dsimp only
  split
  · exact .apart (h _)
  · split
    · exact .refl _
    · split
      · exact .apart (h _)
      · exact .refl _

theorem readProperty_deepens (m : ModelId) (p : Property) :
    Deepens (readProperty perform m p) (readProperty perform' m p) := by
  refine .holding ?_ _
  split
  · exact runHook_deepens h _ _ _
  · refine .after _ fun h' => .after _ fun s => ?_
    dsimp only
    split
    · exact .refl _
    · split
      · exact .refl _
      · split
        · exact represent_deepens h _ _
        · exact .apart (h _)

/-! #### Coercing, constructing and wrapping -/

omit h in
theorem replaceItems_deepens {action action' : Value → Engine Value}
    (ha : ∀ v, Deepens (action v) (action' v)) (a : ArrayId) (i count : Nat) :
    Deepens (replaceItems action a i count) (replaceItems action' a i count) := by
  induction count generalizing i with
  | zero => exact .refl _
  | succ count ih =>
    exact .after _ fun h' => .bind (ha _) fun w => .after _ fun _ => ih (i + 1)

theorem coerceBuiltin_deepens (b : Builtin) (v : Value) :
    Deepens (coerceBuiltin (stored perform) b v) (coerceBuiltin (stored perform') b v) := by
  cases b
  case array =>
    show Deepens (coerceArray (stored perform) v) (coerceArray (stored perform') v)
    unfold coerceArray
    split
    · exact .refl _
    · exact .refl _
    · refine .after _ fun o => ?_
      split
      · exact .refl _
      · exact .after _ fun h' =>
          .andThen (.holding (replaceItems_deepens (fun w => stored_deepens h _ w) _ 0 _) _) _
    · exact .refl _
  all_goals exact .refl _

theorem admitEntries_deepens (m : ModelId) (type : ModelType) (es : List (String × Value)) :
    Deepens (admitEntries perform m type es) (admitEntries perform' m type es) := by
  induction es with
  | nil => exact .refl _
  | cons e es ih =>
    have entry :
        Deepens (admitEntry perform m type e.1 e.2) (admitEntry perform' m type e.1 e.2) := by
      unfold admitEntry
      split
      · exact .refl _
      · split
        · exact h _
        · exact .refl _
    exact .bind (.holding entry _) fun _ => ih

theorem runInit_deepens (m : ModelId) (rules : List Rule) :
    Deepens (runInit perform m rules) (runInit perform' m rules) := by
  induction rules with
  | nil => exact .refl _
  | cons rule rules ih =>
    unfold runInit
    split
    · exact .bind (.holding (runHook_deepens h _ _ _) _) fun _ => ih
    · exact .after _ fun _ => ih

theorem construct_deepens (t : TypeId) (data : Option Value) :
    Deepens (construct perform t data) (construct perform' t data) := by
  have finish : ∀ m, Deepens
      (do runInit perform m ((← schema).initRules t); return m)
      (do runInit perform' m ((← schema).initRules t); return m) := fun m =>
    .after _ fun s => .andThen (runInit_deepens h m _) _
  refine .after _ fun s => ?_
  dsimp only
  split
  · exact .refl _
  · split
    · exact .after _ fun r => .after _ fun m => .after _ fun h' =>
        .bind (admitEntries_deepens h m _ _) fun _ => .after _ fun _ => finish m
    · exact .after _ fun m => finish m

theorem wrapData_deepens (t : TypeId) (v : Value) :
    Deepens (wrapData perform t v) (wrapData perform' t v) := by
  refine .after _ fun s => ?_
  dsimp only
  split
  · exact .refl _
  · split
    · exact .refl _
    · split
      · exact .refl _
      · cases v <;>
          (refine .after _ fun existing => ?_
           cases existing with
           | some m => exact .refl _
           | none => exact .andThen (h _) _)

theorem wrapUnder_deepens (t : TypeId) (v : Value) :
    Deepens (wrapUnder perform t v) (wrapUnder perform' t v) := by
  have standard : Deepens (wrapStandard perform t v) (wrapStandard perform' t v) := by
    refine .after _ fun existing => ?_
    split
    · exact .refl _
    · refine .bind (coerceUnder_deepens h t v) fun w => ?_
      split
      · exact .refl _
      · refine .after _ fun existing => ?_
        split
        · exact .refl _
        · cases w <;> exact .after _ fun u => wrapData_deepens h t u
  refine .after _ fun s => ?_
  split
  · exact runRule_deepens h _ t v _
  · exact standard

/-! #### Calls -/

theorem callMethod_deepens (m : ModelId) (name : String) (arguments : List Value) :
    Deepens (callMethod perform m name arguments) (callMethod perform' m name arguments) := by
  refine .holding (.after _ fun h' => .after _ fun s => ?_) _
  split
  · exact h _
  · exact .andThen (.apart (h _)) _
  · unfold runMethod
    split
    · exact runHook_deepens h _ _ _
    all_goals exact .refl _
  · exact .refl _

theorem body_deepens (op : Operation α) : Deepens (op.body perform) (op.body perform') := by
  cases op with
  | coerce t v =>
    cases t with
    | builtin b => exact coerceBuiltin_deepens h b v
    | model t => exact coerceUnder_deepens h t v
    | adapter a => exact .refl _
  | wrap t v =>
    cases t with
    | builtin b => exact coerceBuiltin_deepens h b v
    | model t => exact wrapUnder_deepens h t v
    | adapter a =>
      refine .after _ fun s => ?_
      split
      · exact runHook_deepens h _ _ v
      · exact .refl _
  | create t data => exact construct_deepens h t data
  | get m p => exact readProperty_deepens h m p
  | set m p v => exact writeProperty_deepens h m p v
  | call m name arguments => exact callMethod_deepens h m name arguments

end Bodies

/-- **An operation that ends within a bound ends alike within any greater bound.** -/
theorem perform_deepens {depth depth' : Nat} (le : depth ≤ depth') (op : Operation α) :
    Deepens (perform depth op) (perform depth' op) := by
  induction depth generalizing depth' α with
  | zero => exact .exhausted _
  | succ depth ih =>
    obtain ⟨depth', rfl⟩ : ∃ d, depth' = d + 1 := ⟨depth' - 1, by omega⟩
    exact body_deepens (fun op => ih (Nat.le_of_succ_le_succ le) op) op

end Overlay.Engine
