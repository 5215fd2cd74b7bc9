import Overlay.Proofs.Plain.Collecting

/-!
# One entry at a time

Whether the entries of a record can be stored, and what is objected to, can be told of each entry by
itself.  If no two keys denote one property, so can what becomes of its fields.

* `Tree.checked`, `Tree.laid` : what an entry comes to, and the fields once the entries have come to
  something;
* `Tree.admitted_eq_laid` : **the entries are checked in order, and only then laid into the
  record**;
* `Tree.laid_get` : what stands under the keys that an entry goes to, whatever else is laid.
-/

namespace Overlay

/-! ### Verdicts in a row -/

namespace Verdict

variable {α β : Type} {f : α → Verdict β} {x : α} {xs before after : List α} {e : Error}

theorem signalled_bind_pure {γ : Type} (V : Verdict β) (g : β → γ) :
    (V >>= fun b => pure (g b)).signalled = V.signalled := by
  cases hV : V.result with
  | error e => rw [bind_of_error hV]
  | ok b =>
    rw [bind_of_ok hV]
    exact List.append_nil _

theorem result_bind_pure {γ : Type} (V : Verdict β) (g : β → γ) :
    (V >>= fun b => pure (g b)).result = V.result.map g := by
  cases hV : V.result with
  | error e => rw [bind_of_error hV]; rfl
  | ok b => rw [bind_of_ok hV]; rfl

theorem mapM_of_ok (ok : ∀ x ∈ xs, ∃ b, (f x).result = .ok b) :
    (xs.mapM f).signalled = xs.flatMap (fun x => (f x).signalled) ∧
      ∃ ys, (xs.mapM f).result = .ok ys ∧ List.Forall₂ (fun x y => (f x).result = .ok y) xs ys := by
  induction xs with
  | nil => exact ⟨rfl, [], rfl, .nil⟩
  | cons x xs ih =>
    obtain ⟨b, hb⟩ := ok x List.mem_cons_self
    obtain ⟨signalled, ys, hys, each⟩ := ih fun x hx => ok x (List.mem_cons_of_mem _ hx)
    rw [List.mapM_cons, bind_of_ok hb, bind_of_ok hys]
    refine ⟨?_, b :: ys, rfl, .cons hb each⟩
    rw [List.flatMap_cons, signalled]
    exact congrArg _ (List.append_nil _)

theorem mapM_of_error (ok : ∀ x ∈ before, ∃ b, (f x).result = .ok b)
    (stops : (f x).result = .error e) :
    (before ++ x :: after).mapM f =
      ⟨before.flatMap (fun x => (f x).signalled) ++ (f x).signalled, .error e⟩ := by
  induction before with
  | nil =>
    rw [List.nil_append, List.mapM_cons, bind_of_error stops]
    rfl
  | cons x' before ih =>
    obtain ⟨b, hb⟩ := ok x' List.mem_cons_self
    rw [List.cons_append, List.mapM_cons, bind_of_ok hb,
      ih fun x hx => ok x (List.mem_cons_of_mem _ hx), bind_of_error (e := e) rfl,
      List.flatMap_cons, List.append_assoc]

theorem mapM_ok_iff :
    (∃ ys, (xs.mapM f).result = .ok ys) ↔ ∀ x ∈ xs, ∃ b, (f x).result = .ok b := by
  refine ⟨?_, fun ok => ?_⟩
  · induction xs with
    | nil => exact fun _ x hx => absurd hx List.not_mem_nil
    | cons x xs ih =>
      rintro ⟨ys, h⟩
      rw [List.mapM_cons] at h
      obtain ⟨b, hb, h, -⟩ := bind_eq_ok h
      rw [result_bind_pure] at h
      cases hxs : (xs.mapM f).result with
      | error e =>
        rw [hxs] at h
        cases h
      | ok ys' =>
        intro x' hx'
        rcases List.mem_cons.1 hx' with rfl | hx'
        · exact ⟨b, hb⟩
        · exact ih ⟨ys', hxs⟩ x' hx'
  · obtain ⟨-, ys, hys, -⟩ := mapM_of_ok ok
    exact ⟨ys, hys⟩

theorem mem_signalled_mapM {err : Error} (h : err ∈ (xs.mapM f).signalled) :
    ∃ x ∈ xs, err ∈ (f x).signalled := by
  induction xs with
  | nil => cases h
  | cons x xs ih =>
    rw [List.mapM_cons] at h
    cases hx : (f x).result with
    | error e =>
      rw [bind_of_error hx] at h
      exact ⟨x, List.mem_cons_self, h⟩
    | ok b =>
      rw [bind_of_ok hx] at h
      rcases List.mem_append.1 h with h | h
      · exact ⟨x, List.mem_cons_self, h⟩
      · rw [signalled_bind_pure] at h
        obtain ⟨x', hx', h⟩ := ih h
        exact ⟨x', List.mem_cons_of_mem _ hx', h⟩

end Verdict

/-! ### Fields that an entry goes to -/

namespace ModelType

variable {t : ModelType} {i : Nat} {key key' k : String}

/-- The entry under the first key is seen under the second one when it has been stored. -/
def Touches (t : ModelType) (key k : String) : Prop :=
  k = key ∨ ∃ p, t.through? key = some p ∧ k = p.storageKey

/-- No property is denoted by both keys. -/
def Parts (t : ModelType) (key key' : String) : Prop :=
  key ≠ key' ∧ ∀ p, t.property? key = some p → t.property? key' ≠ some p

theorem Parts.not_touches (h : t.Parts key key') (keyed : t.WellKeyed) (placed : t.PlacedAt i)
    (touches : t.Touches key k) : ¬ t.Touches key' k := by
  have found : ∀ {key p}, t.through? key = some p → t.property? key = some p :=
    fun hp => (through?_eq_some.1 hp).2
  rintro (e | ⟨q, hq, e⟩) <;> rcases touches with e' | ⟨p, hp, e'⟩
  · exact h.1 (e'.symm.trans e)
  · have := keyed.found_by_storageKey placed (found hp)
    rw [← e', e] at this
    exact h.2 p (found hp) this
  · have := keyed.found_by_storageKey placed (found hq)
    rw [← e, e'] at this
    exact h.2 q this (found hq)
  · have same := keyed.eq_of_storageKey placed (found hp) (found hq) (e'.symm.trans e)
    exact h.2 p (found hp) (same ▸ found hq)

/-- What is seen there of an entry that has come to a tree. -/
def left (t : ModelType) (e : String × Tree) (y : Tree) (k : String) : Tree :=
  match t.through? e.1 with
  | some p => if k = p.storageKey then y else Tree.seen e.2 y
  | none => e.2

end ModelType

namespace Tree

variable {s : Schema} {strict : Bool} {t : TypeId} {T : ModelType} {k : String} {e : String × Tree}
  {es pending fields : Entries} {written : List String} {y : Tree} {ys : List Tree}

/-- What an entry of a record of the type comes to: its stored form, or the tree itself if it goes
through no property. -/
def checked (s : Schema) (strict : Bool) (t : TypeId) (e : String × Tree) : Verdict Tree :=
  match (s.type t).through? e.1 with
  | some p => stored s strict p.slot e.2
  | none =>
    if isReserved e.1 || (s.type t).allowsAdditional then pure e.2
    else Verdict.signal (.unrecognizedKey e.1) >>= fun _ => pure e.2

/-- The fields of a record of the type once its entries have come to these trees, one after the
other, given the keys that were written before. -/
def laid (t : ModelType) : Entries → List Tree → List String → Entries → Entries
  | [], _, _, fields => fields
  | _ :: _, [], _, fields => fields
  | (key, _) :: rest, y :: ys, written, fields =>
    match t.through? key with
    | some p => laid t rest ys (p.storageKey :: written)
        (Entries.put p.storageKey y (Entries.reveal written key y fields))
    | none => laid t rest ys written fields

theorem storedItems_eq_mapM (e : Slot) (xs : List Tree) :
    storedItems s strict e xs = xs.mapM (stored s strict e) := by
  induction xs with
  | nil => rw [storedItems, List.mapM_nil]
  | cons x xs ih => rw [storedItems, List.mapM_cons, ih]

/-- **The entries are checked in order, and only then laid into the record.** -/
theorem admitted_eq_laid (pending : Entries) (written : List String) (fields : Entries) :
    admitted s strict t pending written fields =
      pending.mapM (checked s strict t) >>= fun ys =>
        pure (laid (s.type t) pending ys written fields) := by
  induction pending generalizing written fields with
  | nil => rw [admitted, List.mapM_nil, pure_bind, laid]
  | cons e rest ih =>
    obtain ⟨key, x⟩ := e
    rw [admitted_eq, List.mapM_cons]
    unfold checked
    simp only [bind_assoc, pure_bind, laid]
    cases (s.type t).through? key with
    | some p =>
      dsimp only
      refine congrArg _ (funext fun y => ?_)
      rw [ih]
      rfl
    | none =>
      dsimp only
      split
      · rw [ih, pure_bind]
        rfl
      · rw [bind_assoc]
        refine congrArg _ (funext fun y => ?_)
        rw [ih, pure_bind]
        rfl

theorem laid_get_of_not_touches (untouched : ∀ e ∈ pending, ¬ T.Touches e.1 k) (ys : List Tree)
    (written : List String) (fields : Entries) :
    (laid T pending ys written fields).get k = fields.get k := by
  induction pending generalizing ys written fields with
  | nil => rw [laid]
  | cons e rest ih =>
    obtain ⟨key, x⟩ := e
    have rest := ih fun e he => untouched e (List.mem_cons_of_mem _ he)
    obtain ⟨other, elsewhere⟩ := not_or.1 (untouched (key, x) List.mem_cons_self)
    cases ys with
    | nil => rw [laid]
    | cons y ys =>
      rw [laid]
      cases hp : T.through? key with
      | none => exact rest ys written fields
      | some p =>
        dsimp only
        rw [rest, Entries.get_put, if_neg fun e => elsewhere ⟨p, hp, e⟩]
        exact Entries.get_reveal (Or.inr (Or.inr other))

/-- What stands under a key once an entry that goes there is laid. -/
theorem laid_get (apart : pending.Pairwise fun e e' => ∀ k, T.Touches e.1 k → ¬ T.Touches e'.1 k)
    (there : ∀ e ∈ pending, e.1 ∈ fields.keys ∧ fields.get e.1 = e.2 ∧ e.1 ∉ written)
    (mem : (e, y) ∈ pending.zip ys) (touches : T.Touches e.1 k) :
    (laid T pending ys written fields).get k = T.left e y k := by
  induction pending generalizing ys written fields with
  | nil => cases mem
  | cons e' rest ih =>
    obtain ⟨key, x⟩ := e'
    cases ys with
    | nil => cases mem
    | cons y' ys =>
      obtain ⟨others, apart⟩ := List.pairwise_cons.1 apart
      obtain ⟨key_there, under, unwritten⟩ := there (key, x) List.mem_cons_self
      rw [laid]
      rcases List.mem_cons.1 (List.zip_cons_cons ▸ mem) with this | mem
      · -- the entry is laid now, and none of the others goes there
        cases this
        unfold ModelType.left
        have last := laid_get_of_not_touches (k := k) (fun e' he => others e' he k touches) ys
        cases hp : T.through? key with
        | none =>
          rw [last]
          rcases touches with rfl | ⟨p, hp', -⟩
          · exact under
          · cases hp.symm.trans hp'
        | some p =>
          dsimp only
          rw [last, Entries.get_put]
          split
          · rfl
          · rename_i other
            rcases touches with rfl | ⟨p', hp', e⟩
            · unfold Entries.reveal seen
              rw [decide_eq_false unwritten, Bool.or_false]
              split
              · exact under
              · rw [Entries.get_replace, if_pos ⟨rfl, key_there⟩]
            · cases hp.symm.trans hp'
              exact absurd e other
      · have later := List.of_mem_zip mem
        cases hp : T.through? key with
        | none => exact ih apart (fun e he => there e (List.mem_cons_of_mem _ he)) mem
        | some p =>
          refine ih apart (fun e he => ?_) mem
          obtain ⟨mem_keys, under, unwritten⟩ := there e (List.mem_cons_of_mem _ he)
          have not_touched : ¬ T.Touches key e.1 := fun h => others e he _ h (Or.inl rfl)
          obtain ⟨other, elsewhere⟩ := not_or.1 not_touched
          have elsewhere : e.1 ≠ p.storageKey := fun e => elsewhere ⟨p, hp, e⟩
          refine ⟨?_, ?_, fun h => (List.mem_cons.1 h).elim elsewhere unwritten⟩
          · rwa [Entries.mem_keys_put elsewhere, Entries.keys_reveal]
          · rw [Entries.get_put, if_neg elsewhere,
              Entries.get_reveal (Or.inr (Or.inr other)), under]

/-! ### New models -/

/-- A new model is around the fields that its entries are laid into. -/
theorem constructed_eq_laid (allowed : (s.type t).allowsInstances = true)
    (hstr : (s.type t).isStructured = true) (name : Option String) (es : Entries) :
    constructed s strict name t (record es) =
      es.mapM (checked s strict t) >>= fun ys => pure (record (laid (s.type t) es ys [] es)) := by
  unfold constructed
  rw [allowed, hstr]
  show (admitted s strict t es [] es >>= fun fields => pure (record fields)) = _
  rw [admitted_eq_laid, bind_assoc]
  simp only [pure_bind]

theorem constructed_alone (allowed : (s.type t).allowsInstances = true)
    (hstr : (s.type t).isStructured = true) (name : Option String) (e : String × Tree) :
    constructed s strict name t (record [e]) =
      checked s strict t e >>= fun y => pure (record (laid (s.type t) [e] [y] [] [e])) := by
  rw [constructed_eq_laid allowed hstr, List.mapM_cons, List.mapM_nil]
  simp only [bind_assoc, pure_bind]

end Tree

end Overlay
