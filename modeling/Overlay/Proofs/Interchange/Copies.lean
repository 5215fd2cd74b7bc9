import Overlay.Proofs.Interchange.Views
import Overlay.Proofs.Snapshot.Steps

/-!
# Snapshots say what they are taken of

A snapshot consists of fresh cells and of values that were there.  Read as it is, it says what was
to be read of the value that it was taken of; it is nested no deeper, and leads to nothing else that
was there.

* `Interchange.Copied` : one value as the copy of another one;
* `Interchange.Copies.within` : a snapshot is a copy of what it was taken of.
-/

namespace Overlay

theorem Fields.entries_remove_of_not_mem {f : Fields} {key : String} (hk : key ∉ f.keys) :
    (f.remove key).entries = f.entries :=
  List.filter_eq_self.2 fun e he => decide_eq_true fun heq => hk (heq ▸ List.mem_map.2 ⟨e, he, rfl⟩)

theorem Fields.entries_ofList_filter {es : List (String × Value)}
    (nodup : (es.map Prod.fst).Nodup) :
    (ofList es).entries = es.filter fun e => !e.2.isUndefined := by
  have skip : ∀ (es : List (String × Value)) (f : Fields), (f.keys ++ es.map Prod.fst).Nodup →
      (es.foldl (fun f e => f.insert e.1 e.2) f).entries =
        f.entries ++ es.filter fun e => !e.2.isUndefined := by
    intro es
    induction es with
    | nil => exact fun f _ => (List.append_nil _).symm
    | cons e es ih =>
      intro f nodup
      have fresh : e.1 ∉ f.keys := fun h =>
        (List.nodup_append.1 nodup).2.2 _ h _ List.mem_cons_self rfl
      have rest : (f.keys ++ es.map Prod.fst).Nodup :=
        nodup.sublist ((List.sublist_cons_self _ _).append_left _)
      rw [List.foldl_cons]
      by_cases hv : e.2 = .undefined
      · have entries := entries_remove_of_not_mem fresh
        have keys : (f.remove e.1).keys = f.keys := congrArg (List.map Prod.fst) entries
        rw [hv, insert_undefined, ih _ (by rwa [keys]), entries, List.filter_cons_of_neg]
        simp [hv]
      · have entries := entries_insert_of_not_mem fresh hv
        have keys : (f.insert e.1 e.2).keys = f.keys ++ [e.1] := by
          unfold Fields.keys
          rw [entries, List.map_append]
          rfl
        rw [ih _ (by rw [keys, List.append_assoc]; exact nodup), entries, List.append_assoc,
          List.filter_cons_of_pos]
        · rfl
        · rw [Bool.not_eq_true', Bool.eq_false_iff, ne_eq, Value.isUndefined_iff]
          exact hv
  exact skip es empty nodup

namespace Interchange

open Heap Snapshot

variable {c : Snapshot.Context} {h h' h'' : Heap} {n k : Nat} {view : View} {v w : Value}
  {st : Snapshot.State}

/-! ### The heap while copies are made -/

/-- The heap is in order, and what is held is there. -/
structure Fit (c : Snapshot.Context) (h : Heap) : Prop where
  /-- Whatever a cell holds is there. -/
  closed : h.Closed
  /-- Models are attached only to the records that they wrap. -/
  tied : h.Tied c.schema
  /-- What is held is there. -/
  roots : ∀ v ∈ c.roots, h.Holds v

/-- Cells for copies were added, and nothing else. -/
structure After (c : Snapshot.Context) (h h' : Heap) : Prop where
  /-- No cell changed. -/
  cells : h.Extends h'
  /-- There are no other models. -/
  models : h'.models = h.models
  /-- The heap is in order. -/
  fit : Fit c h'

namespace After

theorem refl (fit : Fit c h) : After c h h := ⟨.refl h, rfl, fit⟩

theorem trans (a : After c h h') (a' : After c h' h'') : After c h h'' :=
  ⟨a.cells.trans a'.cells, a'.models.trans a.models, a'.fit⟩

theorem step (fit : Fit c h) (step : Step c.schema True h h') (e : h.Extends h')
    (models : h'.models = h.models) : After c h h' :=
  ⟨e, models, step.closed trivial fit.closed, step.tied fit.tied, fun v hv =>
    (fit.roots v hv).grows step.grows⟩

end After

/-- The value is there, and nested so deep only. -/
structure Given (h : Heap) (n : Nat) (v : Value) : Prop where
  /-- It is there. -/
  there : h.Holds v
  /-- It is nested so deep only. -/
  nested : h.Nested n v

namespace Given

theorem child (given : Given h (n + 1) v) (fit : Fit c h) (hw : w ∈ h.children v) :
    Given h n w :=
  ⟨fit.closed v given.there w hw, given.nested w hw⟩

theorem after (given : Given h n v) (fit : Fit c h) (a : After c h h') : Given h' n v :=
  ⟨given.there.grows a.cells.grows, given.nested.of_extends a.cells fit.closed given.there⟩

end Given

/-- In the later heap one value, read as it is, says what was read of the other one. -/
structure Copied (c : Snapshot.Context) (h h' : Heap) (n : Nat) (view : View) (v w : Value) :
    Prop where
  /-- The copy is there. -/
  given : Given h' n w
  /-- It leads to nothing else that was there. -/
  leads : ∀ x, h'.Reachable [w] x → h.Holds x → h.Reachable [v] x
  /-- It says the same. -/
  shown : read c.schema h' c.roots .bare w = read c.schema h c.roots view v
  /-- There is something left of the value just if there is a copy. -/
  void : w.isUndefined = view.isVoid h v

namespace Copied

theorem self (given : Given h n v)
    (shown : read c.schema h c.roots .bare v = read c.schema h c.roots view v)
    (void : v.isUndefined = view.isVoid h v) : Copied c h h n view v v :=
  ⟨given, fun _ reach _ => reach, shown, void⟩

theorem mono (copied : Copied c h h' n view v w) (le : n ≤ k) : Copied c h h' k view v w :=
  ⟨⟨copied.given.there, copied.given.nested.mono le⟩, copied.leads, copied.shown, copied.void⟩

theorem later (copied : Copied c h h' n view v w) (fit : Fit c h') (a : After c h' h'') :
    Copied c h h'' n view v w := by
  have there : ∀ x ∈ [w], h'.Holds x := List.forall_mem_singleton.2 copied.given.there
  refine ⟨copied.given.after fit a, fun x reach hx => ?_, ?_, copied.void⟩
  · exact copied.leads x ((a.cells.reachable_iff fit.closed there).1 reach) hx
  · rw [read_extends a.cells fit.closed fit.roots copied.given.there copied.given.nested]
    exact copied.shown

theorem since (copied : Copied c h' h'' n view v w) (fit : Fit c h) (given : Given h k v)
    (a : After c h h') : Copied c h h'' n view v w := by
  have there : ∀ x ∈ [v], h.Holds x := List.forall_mem_singleton.2 given.there
  refine ⟨copied.given, fun x reach hx => ?_, ?_, ?_⟩
  · have := copied.leads x reach (hx.grows a.cells.grows)
    exact (a.cells.reachable_iff fit.closed there).1 this
  · rw [← read_extends a.cells fit.closed fit.roots given.there given.nested]
    exact copied.shown
  · rw [← view.isVoid_extends a.cells given.there]
    exact copied.void

end Copied

/-- The action makes copies of values nested so deep, looked at in this way. -/
def Copying (c : Snapshot.Context) (n : Nat) (view : View) (copy : Value → Snapshot.Action Value) :
    Prop :=
  ∀ (v : Value) (st : Snapshot.State), Fit c st.heap → Given st.heap n v →
    After c st.heap (copy v c st).2.heap ∧
      Copied c st.heap (copy v c st).2.heap n view v (copy v c st).1

/-! ### Arrays -/

theorem Copied.all_since {vs ws : List Value} (copies : List.Forall₂ (Copied c h' h'' n view) vs ws)
    (fit : Fit c h) (given : ∀ v ∈ vs, Given h k v) (a : After c h h') :
    List.Forall₂ (Copied c h h'' n view) vs ws := by
  induction copies with
  | nil => exact .nil
  | cons copied _ ih =>
    obtain ⟨first, rest⟩ := List.forall_mem_cons.1 given
    exact .cons (copied.since fit first a) (ih rest)

theorem each_copied {copy : Value → Snapshot.Action Value} (hcopy : Copying c n view copy)
    {vs : List Value} (fit : Fit c st.heap) (given : ∀ v ∈ vs, Given st.heap n v) :
    After c st.heap (each copy vs c st).2.heap ∧
      List.Forall₂ (Copied c st.heap (each copy vs c st).2.heap n view) vs
        (each copy vs c st).1 := by
  induction vs generalizing st with
  | nil => exact ⟨.refl fit, .nil⟩
  | cons v vs ih =>
    obtain ⟨hv, hvs⟩ := List.forall_mem_cons.1 given
    obtain ⟨first, copied⟩ := hcopy v st fit hv
    obtain ⟨rest, copies⟩ := ih first.fit fun w hw => (hvs w hw).after fit first
    -- the first copy is moved on to the last heap, the others back to the first one
    exact ⟨first.trans rest, .cons (copied.later first.fit rest)
      (Copied.all_since copies fit hvs first)⟩

/-- What copies lead to, a fresh cell around them leads to. -/
theorem leads_of_fresh {f : Value} (fresh : ¬ h.Holds f)
    (inside : ∀ w ∈ h'.children f, ∃ v' ∈ h.children v, ∀ x, h'.Reachable [w] x → h.Holds x →
      h.Reachable [v'] x) (x : Value) (reach : h'.Reachable [f] x) (hx : h.Holds x) :
    h.Reachable [v] x := by
  rcases reach.cases_child with rfl | ⟨w, hw, reach⟩
  · exact absurd hx fresh
  · obtain ⟨v', hv', leads⟩ := inside w hw
    exact (leads x reach hx).through hv'

theorem Copied.source {vs ws : List Value} (copies : List.Forall₂ (Copied c h h' n view) vs ws)
    (hw : w ∈ ws) : ∃ v ∈ vs, Copied c h h' n view v w := by
  induction copies with
  | nil => cases hw
  | cons copied _ ih =>
    rcases List.mem_cons.1 hw with rfl | hw
    · exact ⟨_, List.mem_cons_self, copied⟩
    · obtain ⟨v, hv, copied⟩ := ih hw
      exact ⟨v, List.mem_cons_of_mem _ hv, copied⟩

theorem Copied.map_read {vs ws : List Value}
    (copies : List.Forall₂ (Copied c h h' n view) vs ws) :
    ws.map (read c.schema h' c.roots .bare) = vs.map (read c.schema h c.roots view) := by
  induction copies with
  | nil => rfl
  | cons copied _ ih => rw [List.map_cons, List.map_cons, copied.shown, ih]

theorem freshArray_copied {a : ArrayId} {ws : List Value} (fit : Fit c h)
    (given : Given h (n + 1) (.array a)) (made : After c h h')
    (copies : List.Forall₂ (Copied c h h' n view.element) (h.items a) ws) :
    After c h (h'.addArray ws).2 ∧
      Copied c h (h'.addArray ws).2 (n + 1) view (.array a) (.array (h'.addArray ws).1) := by
  have step : After c h' (h'.addArray ws).2 := by
    refine .step made.fit (.addArray fun w hw _ => ?_) (h'.extends_addArray ws) rfl
    obtain ⟨v, -, copied⟩ := Copied.source copies hw
    exact copied.given.there
  have copies := copies.imp fun _ _ copied => copied.later made.fit step
  have items : (h'.addArray ws).2.items (h'.addArray ws).1 = ws :=
    (h'.items_addArray ws _).trans (if_pos rfl)
  have inside : ∀ w ∈ (h'.addArray ws).2.children (.array (h'.addArray ws).1), ∃ v ∈ h.items a,
      Copied c h (h'.addArray ws).2 n view.element v w := fun w hw =>
    Copied.source copies (items ▸ hw)
  have there : (h'.addArray ws).2.Holds (.array (h'.addArray ws).1) :=
    Nat.lt_of_lt_of_eq (Nat.lt_succ_self _) (Array.size_push _).symm
  have nested : (h'.addArray ws).2.Nested (n + 1) (.array (h'.addArray ws).1) := by
    intro w hw
    obtain ⟨v, -, copied⟩ := inside w hw
    exact copied.given.nested
  refine ⟨made.trans step, ⟨there, nested⟩, ?_, ?_, ?_⟩
  · refine leads_of_fresh (fun hx => ?_) fun w hw => ?_
    · exact absurd (Nat.lt_of_lt_of_le hx made.cells.arrays.size_le) (Nat.lt_irrefl _)
    · obtain ⟨v, hv, copied⟩ := inside w hw
      exact ⟨v, hv, copied.leads⟩
  · rw [read_array step.fit.closed there nested, read_array fit.closed given.there given.nested,
      items]
    exact congrArg Json.array (Copied.map_read copies)
  · cases view <;> rfl

/-! ### Records -/

/-- These are the entries of a snapshot under a type of a record with those. -/
inductive Taken (c : Snapshot.Context) (h h' : Heap) (n : Nat) (type : ModelType) :
    List (String × Value) → List (String × Value) → Prop
  /-- There are none. -/
  | nil : Taken c h h' n type [] []
  /-- The first one is left out. -/
  | skip {key : String} {v : Value} {es ws : List (String × Value)}
      (out : View.inside? (some type) key = none) (rest : Taken c h h' n type es ws) :
      Taken c h h' n type ((key, v) :: es) ws
  /-- The first one is copied. -/
  | copy {key : String} {v w : Value} {es ws : List (String × Value)} {view : View}
      (inside : View.inside? (some type) key = some view) (copied : Copied c h h' n view v w)
      (rest : Taken c h h' n type es ws) : Taken c h h' n type ((key, v) :: es) ((key, w) :: ws)

namespace Taken

variable {type : ModelType} {es ws : List (String × Value)}

theorem keys (taken : Taken c h h' n type es ws) :
    (ws.map Prod.fst).Sublist (es.map Prod.fst) := by
  induction taken with
  | nil => exact .slnil
  | skip _ _ ih => exact ih.cons _
  | copy _ _ _ ih => exact ih.cons_cons _

theorem later (taken : Taken c h h' n type es ws) (fit : Fit c h') (a : After c h' h'') :
    Taken c h h'' n type es ws := by
  induction taken with
  | nil => exact .nil
  | skip out _ ih => exact .skip out ih
  | copy inside copied _ ih => exact .copy inside (copied.later fit a) ih

theorem since (taken : Taken c h' h'' n type es ws) (fit : Fit c h)
    (given : ∀ e ∈ es, Given h k e.2) (a : After c h h') : Taken c h h'' n type es ws := by
  induction taken with
  | nil => exact .nil
  | skip out _ ih => exact .skip out (ih (List.forall_mem_cons.1 given).2)
  | copy inside copied _ ih =>
    obtain ⟨first, rest⟩ := List.forall_mem_cons.1 given
    exact .copy inside (copied.since fit first a) (ih rest)

theorem source {e : String × Value} (taken : Taken c h h' n type es ws) (he : e ∈ ws) :
    ∃ v ∈ es.map Prod.snd, ∃ view, Copied c h h' n view v e.2 := by
  induction taken with
  | nil => cases he
  | skip _ _ ih =>
    obtain ⟨v, hv, copied⟩ := ih he
    exact ⟨v, List.mem_cons_of_mem _ hv, copied⟩
  | copy _ copied _ ih =>
    rcases List.mem_cons.1 he with rfl | he
    · exact ⟨_, List.mem_cons_self, _, copied⟩
    · obtain ⟨v, hv, copied⟩ := ih he
      exact ⟨v, List.mem_cons_of_mem _ hv, copied⟩

/-- The entries that have a value, read as they are, say what was read of the record. -/
theorem readMembers_eq (taken : Taken c h h' n type es ws) :
    readMembers h' (read c.schema h' c.roots) none (ws.filter fun e => !e.2.isUndefined) =
      readMembers h (read c.schema h c.roots) (some type) es := by
  induction taken with
  | nil => rfl
  | skip out _ ih => rw [ih, readMembers_of_out out]
  | @copy key v w es ws view inside copied rest ih =>
    have bare : View.inside? none key = some .bare := by
      unfold View.inside? at inside ⊢
      split at inside
      · cases inside
      · rename_i hk
        rw [if_neg hk]
    have void := copied.void
    cases hw : view.isVoid h v with
    | true =>
      rw [List.filter_cons_of_neg (by simp [void, hw]), ih, readMembers_of_void inside hw]
    | false =>
      have there : View.bare.isVoid h' w = false := void.trans hw
      rw [List.filter_cons_of_pos (by simp [void, hw]), readMembers_of_inside bare there,
        readMembers_of_inside inside hw, ih, copied.shown]

end Taken

theorem entriesOf_taken {copy : Property → Value → Snapshot.Action Value}
    (hcopy : ∀ p, Copying c n (.taken (some p)) (copy p)) (type : ModelType)
    {es : List (String × Value)} (fit : Fit c st.heap)
    (given : ∀ e ∈ es, Given st.heap n e.2) :
    After c st.heap (entriesOf copy type es c st).2.heap ∧
      Taken c st.heap (entriesOf copy type es c st).2.heap n type es
        (entriesOf copy type es c st).1 := by
  induction es generalizing st with
  | nil => exact ⟨.refl fit, .nil⟩
  | cons e es ih =>
    obtain ⟨key, v⟩ := e
    obtain ⟨hv, hes⟩ := List.forall_mem_cons.1 given
    unfold entriesOf
    by_cases hk : isReserved key = true
    · rw [if_pos hk]
      obtain ⟨a, taken⟩ := ih fit hes
      exact ⟨a, .skip (if_pos hk) taken⟩
    · rw [if_neg hk]
      rcases hp : type.property? key with _ | p
      · -- without a property the value is shared, if it may be there at all
        by_cases had : type.allowsAdditional = true
        · have inside : View.inside? (some type) key = some .bare := by
            simp only [View.inside?, hp, if_neg hk, if_pos had]
          dsimp only
          rw [if_pos had]
          obtain ⟨a, taken⟩ := ih fit hes
          exact ⟨a, .copy inside ((Copied.self hv rfl rfl).later fit a) taken⟩
        · have out : View.inside? (some type) key = none := by
            simp only [View.inside?, hp, if_neg hk, if_neg had]
          dsimp only
          rw [if_neg had]
          obtain ⟨a, taken⟩ := @ih (noteKey key c st).2 fit hes
          exact ⟨a, .skip out taken⟩
      · by_cases hpp : p.isPersisted = true
        · have inside : View.inside? (some type) key = some (.taken (some p)) := by
            simp only [View.inside?, hp, if_neg hk, if_pos hpp]
          dsimp only
          rw [if_pos hpp]
          obtain ⟨first, copied⟩ := hcopy p v st fit hv
          obtain ⟨a, taken⟩ := ih first.fit fun e he => (hes e he).after fit first
          exact ⟨first.trans a, .copy inside (copied.later first.fit a) (taken.since fit hes first)⟩
        · have out : View.inside? (some type) key = none := by
            simp only [View.inside?, hp, if_neg hk, if_neg hpp]
          dsimp only
          rw [if_neg hpp]
          obtain ⟨a, taken⟩ := ih fit hes
          exact ⟨a, .skip out taken⟩

theorem freshRecord_copied {r : RecordId} {type : ModelType} {ws : List (String × Value)}
    (fit : Fit c h) (given : Given h (n + 1) (.record r)) (made : After c h h')
    (known : view.type? c.schema h c.roots r = some type)
    (taken : Taken c h h' n type (h.fields r).entries ws) :
    After c h (h'.recordOf ws).2 ∧
      Copied c h (h'.recordOf ws).2 (n + 1) view (.record r) (.record (h'.recordOf ws).1) := by
  have step : After c h' (h'.recordOf ws).2 := by
    refine .step made.fit (.addRecord fun w hw _ => ?_) (h'.extends_addRecord _) rfl
    obtain ⟨e, he, rfl⟩ := List.mem_map.1 (Fields.mem_values_ofList hw)
    obtain ⟨v, -, view, copied⟩ := taken.source he
    exact copied.given.there
  have taken := taken.later made.fit step
  have fields : (h'.recordOf ws).2.fields (h'.recordOf ws).1 = .ofList ws :=
    (h'.fields_addRecord _ _).trans (if_pos rfl)
  have entries : ((h'.recordOf ws).2.fields (h'.recordOf ws).1).entries =
      ws.filter fun e => !e.2.isUndefined := by
    rw [fields, Fields.entries_ofList_filter (taken.keys.nodup (h.fields r).nodup)]
  have inside : ∀ w ∈ (h'.recordOf ws).2.children (.record (h'.recordOf ws).1),
      ∃ v ∈ h.children (.record r), ∃ view, Copied c h (h'.recordOf ws).2 n view v w := by
    intro w hw
    obtain ⟨e, he, rfl⟩ := List.mem_map.1 hw
    rw [entries] at he
    exact taken.source (List.mem_filter.1 he).1
  have there : (h'.recordOf ws).2.Holds (.record (h'.recordOf ws).1) :=
    Nat.lt_of_lt_of_eq (Nat.lt_succ_self _) (Array.size_push _).symm
  have nested : (h'.recordOf ws).2.Nested (n + 1) (.record (h'.recordOf ws).1) := by
    intro w hw
    obtain ⟨v, -, view, copied⟩ := inside w hw
    exact copied.given.nested
  refine ⟨made.trans step, ⟨there, nested⟩, ?_, ?_, ?_⟩
  · refine leads_of_fresh (fun hx => ?_) fun w hw => ?_
    · exact absurd (Nat.lt_of_lt_of_le hx made.cells.records.size_le) (Nat.lt_irrefl _)
    · obtain ⟨v, hv, view, copied⟩ := inside w hw
      exact ⟨v, hv, copied.leads⟩
  · rw [read_record step.fit.closed there nested, read_record fit.closed given.there given.nested,
      entries, known]
    exact congrArg Json.object taken.readMembers_eq
  · cases view <;> rfl

/-! ### Snapshots -/

theorem dataOf_copied {copy : Property → Value → Snapshot.Action Value}
    (hcopy : ∀ p, Copying c n (.taken (some p)) (copy p)) (t : TypeId) :
    Copying c (n + 1) (.under t) (dataOf copy t) := by
  intro data st fit given
  cases data with
  | record r =>
    rw [dataOf_record]
    by_cases hs : (c.schema.type t).isStructured = true
    · rw [if_pos hs]
      obtain ⟨a, taken⟩ := entriesOf_taken hcopy (c.schema.type t) fit fun e he =>
        given.child fit (List.mem_map.2 ⟨e, he, rfl⟩)
      have known : (View.under t).type? c.schema st.heap c.roots r = some (c.schema.type t) := by
        simp only [View.type?, Option.map_some, Option.filter_some, hs, if_true]
      exact freshRecord_copied fit given a known taken
    · rw [if_neg hs]
      refine ⟨.refl fit, .self given (read_record_congr ?_) rfl⟩
      exact (if_neg hs).symm
  | model m =>
    rw [dataOf_other rfl]
    exact ⟨.refl fit, .self given rfl rfl⟩
  | _ =>
    rw [dataOf_other rfl]
    exact ⟨.refl fit, .self given rfl rfl⟩

theorem known?_record (tied : h.Tied c.schema) {p : Option Property} {r : RecordId} {t : TypeId}
    {data : Value} (known : known? h c.roots p (.record r) = some (t, data)) :
    data = .record r := by
  simp only [known?] at known
  split at known
  · rename_i m hm
    obtain ⟨-, hdata, -⟩ := tied r m (Option.filter_eq_some_iff.1 hm).1
    cases known
    exact hdata
  · obtain ⟨t', -, ht⟩ := Option.map_eq_some_iff.1 known
    cases ht
    rfl

theorem Copied.of_data {m : ModelId} (copied : Copied c h h' n (.under (h.type m)) (h.data m) w)
    (fit : Fit c h) (given : Given h k (.model m)) (p : Option Property) :
    Copied c h h' n (.taken p) (.model m) w where
  given := copied.given
  leads x reach hx := (copied.leads x reach hx).through List.mem_cons_self
  shown := copied.shown.trans (read_model fit.closed given.there given.nested _).symm
  void := copied.void

/-- **A snapshot is a copy of what it was taken of**, if it went deep enough. -/
theorem within_copied {depth : Nat} (le : n ≤ depth) (p : Option Property) :
    Copying c n (.taken p) (Snapshot.within depth p) := by
  induction depth generalizing n p with
  | zero =>
    obtain rfl : n = 0 := by omega
    exact fun _ _ _ given => given.nested.elim
  | succ depth ih =>
    intro v st fit given
    obtain ⟨n, rfl⟩ : ∃ k, n = k + 1 := by
      cases n with
      | zero => exact given.nested.elim
      | succ k => exact ⟨k, rfl⟩
    have le : n ≤ depth := Nat.le_of_succ_le_succ le
    cases v with
    | array a =>
      obtain ⟨a, copies⟩ := each_copied (ih le (p.bind (·.elementProperty?))) fit
        fun w hw => given.child fit hw
      exact freshArray_copied fit given a copies
    | model m =>
      -- the depth goes down by two: the model, and the record that is copied for it
      have inside : Given st.heap n (st.heap.data m) := given.child fit List.mem_cons_self
      obtain ⟨k, rfl⟩ : ∃ k, n = k + 1 := by
        cases n with
        | zero => exact inside.nested.elim
        | succ k => exact ⟨k, rfl⟩
      obtain ⟨a, copied⟩ := dataOf_copied (fun p => ih (Nat.le_of_succ_le le) (some p))
        (st.heap.type m) (st.heap.data m) st fit inside
      exact ⟨a, (copied.of_data fit given p).mono (Nat.le_succ _)⟩
    | record r =>
      rw [within_record]
      rcases hk : known? st.heap c.roots p (.record r) with _ | ⟨t, data⟩
      · refine ⟨.refl fit, .self given (read_record_congr ?_) rfl⟩
        simp only [View.type?, hk, Option.map_none]
      · obtain rfl := known?_record fit.tied hk
        obtain ⟨a, copied⟩ := dataOf_copied (fun p => ih le (some p)) t (.record r) st fit given
        refine ⟨a, copied.given, copied.leads, copied.shown.trans (read_record_congr ?_),
          copied.void⟩
        simp only [View.type?, hk, Option.map_some]
    | _ => exact ⟨.refl fit, .self given rfl rfl⟩

end Interchange

end Overlay
