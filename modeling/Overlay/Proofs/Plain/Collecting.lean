import Overlay.Proofs.Plain.Noting
import Overlay.Proofs.Schema.Free

/-!
# What collecting stops at

Where all types may be instantiated and wrap the standard way, one thing only in plain data stops
an operation that collects diagnostics: an array where a model type is declared.  Otherwise there
is a result.  A value that does not fit its slot is reported and left undefined, wherever it stands,
and everything beside it goes through its own slot all the same.

* `Tree.wrapsArray` : an array stands where a model type is declared;
* `Tree.objections` : what is reported of a tree;
* `Tree.Processed` : what has become of it;
* `Tree.stored_collects`, `Tree.constructed_collects` : **bad data never stop collecting, but for
  such an array.**
-/

namespace Overlay

/-- All types may be instantiated, wrap the standard way and run nothing of their own. -/
structure Schema.Open (s : Schema) : Prop where
  /-- It is built without hooks. -/
  built : s.Built
  /-- Nothing runs on new instances. -/
  init : ∀ t, (s.type t).init = none
  /-- Nothing runs in coercion. -/
  coerce : ∀ t, (s.type t).coerce = none
  /-- Wrapping is standard. -/
  wrap : ∀ t, (s.type t).wrap = .standard
  /-- Instances may be made. -/
  instances : ∀ t, (s.type t).allowsInstances = true

namespace Schema

theorem Open.wraps {s : Schema} (o : s.Open) (t : TypeId) : (s.type t).wraps = true := by
  unfold ModelType.wraps
  rw [o.wrap]
  rfl

theorem Open.ruleFree {s : Schema} (o : s.Open) (t : TypeId) : (s.type t).RuleFree :=
  ⟨o.init t, o.coerce t, Or.inl (o.wrap t)⟩

theorem Open.free {s : Schema} (o : s.Open) (t : TypeId) : s.Free (.model t) :=
  o.built.free o.ruleFree t

/-- It is enough to look at the types that there are. -/
theorem Built.isOpen {s : Schema} (h : s.Built)
    (listed : ∀ t ∈ s.models.toList, t.init = none ∧ t.coerce = none ∧ t.wrap = .standard ∧
      t.allowsInstances = true) : s.Open := by
  have all := s.forall_type (P := fun t => t.init = none ∧ t.coerce = none ∧ t.wrap = .standard ∧
    t.allowsInstances = true) (by decide) listed
  exact ⟨h, fun t => (all t).1, fun t => (all t).2.1, fun t => (all t).2.2.1, fun t => (all t).2.2.2⟩

end Schema

/-! ### What fits -/

/-- What a built-in type takes of a value that is there: the value, if it is of the type, or what it
can be converted to, unless strictness forbids it. -/
def Builtin.taken? (strict : Bool) (b : Builtin) (v : Value) : Option Value :=
  if b.accepts v then some v else if strict then none else b.converted? v

/-- What a slot takes of a value without parts that is there. -/
def Slot.taken? (s : Schema) (strict : Bool) (q : Slot) (v : Value) : Option Value :=
  match q.type with
  | .builtin .object => some v
  | .builtin .array => none
  | .builtin .integer =>
    (Builtin.number.taken? strict v).filter fun
      | .number n => n.isIntegral
      | _ => true
  | .builtin b => b.taken? strict v
  | .model t => if (s.type t).isStructured then none else some v
  | .adapter _ => some v

namespace Tree

/-- A tree that is there fits its slot. -/
def fits (s : Schema) (strict : Bool) (q : Slot) : Tree → Bool
  | leaf v => (q.taken? s strict v).isSome
  | array _ =>
    match q.type with
    | .builtin b => b = .array || b = .object
    | .model _ => false
    | .adapter _ => true
  | record _ =>
    match q.type with
    | .builtin b => b = .object
    | _ => true

mutual
/-- An array stands where a model type is declared, in the slot or further down. -/
def wrapsArray (s : Schema) (q : Slot) : Tree → Bool
  | leaf _ => false
  | array xs =>
    match q.items? with
    | some e => wrapsArrayIn s e xs
    | none => q.type.model?.isSome
  | record es =>
    match q.form? s with
    | some t => wrapsArrayUnder s t es
    | none => false
/-- One does in an element. -/
def wrapsArrayIn (s : Schema) (e : Slot) : List Tree → Bool
  | [] => false
  | x :: xs => wrapsArray s e x || wrapsArrayIn s e xs
/-- One does in an entry of a record of the type. -/
def wrapsArrayUnder (s : Schema) (t : TypeId) : Entries → Bool
  | [] => false
  | (key, x) :: rest =>
    (match (s.type t).through? key with
      | some p => wrapsArray s p.slot x
      | none => false) || wrapsArrayUnder s t rest
end

mutual
/-- What is reported of a tree in a slot, in order. -/
def objections (s : Schema) (strict : Bool) (q : Slot) : Tree → List Error
  | leaf v =>
    if v.isNothing || fits s strict q (leaf v) then [] else [.invalidValue q.name (leaf v).text]
  | array xs =>
    match q.items? with
    | some e => objectionsIn s strict e xs
    | none => if fits s strict q (array xs) then [] else [.invalidValue q.name (array xs).text]
  | record es =>
    match q.form? s with
    | some t => objectionsUnder s strict t es
    | none => if fits s strict q (record es) then [] else [.invalidValue q.name (record es).text]
/-- What is reported of elements. -/
def objectionsIn (s : Schema) (strict : Bool) (e : Slot) : List Tree → List Error
  | [] => []
  | x :: xs => objections s strict e x ++ objectionsIn s strict e xs
/-- What is reported of the entries of a record of the type. -/
def objectionsUnder (s : Schema) (strict : Bool) (t : TypeId) : Entries → List Error
  | [] => []
  | (key, x) :: rest =>
    (match (s.type t).through? key with
      | some p => objections s strict p.slot x
      | none =>
        if isReserved key || (s.type t).allowsAdditional then [] else [.unrecognizedKey key]) ++
      objectionsUnder s strict t rest
end

mutual
/-- What becomes of a tree in a slot.  A value that is absent or null stays, and one that does not
fit is undefined then.  One that fits is taken, and its parts go through the slots for them. -/
def Processed (s : Schema) (strict : Bool) (q : Slot) : Tree → Tree → Prop
  | leaf v => fun y => y = leaf (if v.isNothing then v else (q.taken? s strict v).getD .undefined)
  | array xs =>
    match q.items? with
    | some e => fun y => ∃ ys, y = array ys ∧ ProcessedIn s strict e xs ys
    | none => fun y => y = if fits s strict q (array xs) then array xs else leaf .undefined
  | record es =>
    match q.form? s with
    | some t => fun y => ∃ fields, y = record fields ∧ ProcessedUnder s strict t es fields
    | none => fun y => y = if fits s strict q (record es) then record es else leaf .undefined
/-- What becomes of elements, one by one. -/
def ProcessedIn (s : Schema) (strict : Bool) (e : Slot) : List Tree → List Tree → Prop
  | [] => fun ys => ys = []
  | x :: xs => fun ys => ∃ y ys', ys = y :: ys' ∧ Processed s strict e x y ∧
      ProcessedIn s strict e xs ys'
/-- What becomes of the entries of a record of the type: each is found under the storage key of its
property, unless a later one was stored there. -/
def ProcessedUnder (s : Schema) (strict : Bool) (t : TypeId) : Entries → Entries → Prop
  | [] => fun _ => True
  | (key, x) :: rest => fun fields =>
    (∀ p, (s.type t).through? key = some p →
      (∀ e ∈ rest, ∀ p', (s.type t).through? e.1 = some p' → p'.storageKey ≠ p.storageKey) →
        Processed s strict p.slot x (fields.get p.storageKey)) ∧
      ProcessedUnder s strict t rest fields
end

end Tree

/-! ### Verdicts -/

namespace Verdict

variable {α β : Type} {V : Verdict α} {stops stops' : Bool} {es es' : List Error} {R R' : α → Prop}

/-- The verdict either stops at an array that was to be wrapped, or reports these errors and gives a
result like this. -/
def Collects (V : Verdict α) (stops : Bool) (es : List Error) (R : α → Prop) : Prop :=
  if stops then V.result = .error .wrappedArray
  else V.signalled = es ∧ ∃ a, V.result = .ok a ∧ R a

namespace Collects

theorem pure {a : α} (ha : R a) : (Pure.pure a : Verdict α).Collects false [] R := ⟨rfl, a, rfl, ha⟩

theorem wrapped : (Verdict.raise .wrappedArray : Verdict α).Collects true es R := rfl

theorem signal {e : Error} (he : e.isRecordable = true) :
    (Verdict.signal e).Collects false [e] (· = .leaf .undefined) := by
  unfold Verdict.signal
  rw [he]
  exact ⟨rfl, _, rfl, rfl⟩

theorem invalid {name : Option String} {x : Tree} :
    (Verdict.invalid name x).Collects false [.invalidValue name x.text] (· = .leaf .undefined) :=
  signal rfl

theorem mono (h : V.Collects stops es R) (imp : ∀ a, V.result = .ok a → R a → R' a) :
    V.Collects stops es R' := by
  cases stops with
  | true => exact h
  | false =>
    obtain ⟨signalled, a, ha, r⟩ := h
    exact ⟨signalled, a, ha, imp a ha r⟩

theorem bind {next : α → Verdict β} {Q : β → Prop} (h : V.Collects stops es R)
    (rest : ∀ a, V.result = .ok a → R a → (next a).Collects stops' es' Q) :
    (V >>= next).Collects (stops || stops') (es ++ es') Q := by
  cases stops with
  | true =>
    rw [bind_of_error h]
    exact rfl
  | false =>
    obtain ⟨signalled, a, ha, r⟩ := h
    have later := rest a ha r
    rw [bind_of_ok ha, signalled]
    cases stops' with
    | true => exact later
    | false => exact ⟨congrArg (es ++ ·) later.1, later.2⟩

theorem map {f : α → β} {Q : β → Prop} (h : V.Collects stops es R) (imp : ∀ a, R a → Q (f a)) :
    (V >>= fun a => Pure.pure (f a)).Collects stops es Q := by
  have joined : (V >>= fun a => Pure.pure (f a)).Collects (stops || false) (es ++ []) Q :=
    h.bind fun a _ r => .pure (imp a r)
  rwa [Bool.or_false, List.append_nil] at joined

end Collects

end Verdict

namespace Tree

open Verdict

variable {s : Schema} {strict : Bool} {q : Slot} {name : Option String} {b : Builtin} {t : TypeId}
  {v : Value} {x y : Tree} {key k : String}

/-! ### Values whose parts stay as they are -/

theorem scalar_there (there : v.isNothing = false) : scalar strict name b (leaf v) =
    (b.taken? strict v).elim (.invalid name (leaf v)) fun w => pure (leaf w) := by
  unfold scalar Builtin.taken?
  dsimp only
  rw [there, Bool.false_or]
  cases b.accepts v with
  | true => rfl
  | false =>
    cases strict with
    | true => rfl
    | false => cases b.converted? v <;> rfl

theorem idle_builtin_there (type : q.type = .builtin b) (there : v.isNothing = false) :
    idle s strict q (leaf v) =
      (q.taken? s strict v).elim (.invalid q.name (leaf v)) fun w => pure (leaf w) := by
  have here : (leaf v).isNothing = false := there
  unfold idle Slot.taken?
  rw [type]
  cases b with
  | object => rfl
  | array =>
    dsimp only
    rw [here]
    rfl
  | integer =>
    unfold integer
    rw [scalar_there there]
    cases Builtin.number.taken? strict v with
    | none => rfl
    | some w =>
      cases w with
      | number n =>
        rw [Option.elim_some, pure_bind, Option.filter_some]
        dsimp only
        split <;> rfl
      | _ => rfl
  | _ => exact scalar_there there

theorem idle_there (o : s.Open) (there : v.isNothing = false) : idle s strict q (leaf v) =
    (q.taken? s strict v).elim (.invalid q.name (leaf v)) fun w => pure (leaf w) := by
  have here : (leaf v).isNothing = false := there
  rcases hq : q.type with b | t | a
  · exact idle_builtin_there hq there
  · unfold idle Slot.taken? bare
    rw [hq]
    dsimp only
    rw [here, o.wraps, o.instances]
    cases (s.type t).isStructured <;> rfl
  · unfold idle Slot.taken?
    rw [hq]
    rfl

theorem idle_nothing (nothing : v.isNothing = true) : idle s strict q (leaf v) = pure (leaf v) := by
  have here : (leaf v).isNothing = true := nothing
  have scalars : ∀ b, scalar strict q.name b (leaf v) = pure (leaf v) := fun b => by
    unfold scalar
    dsimp only
    rw [nothing, Bool.true_or, if_pos rfl]
  unfold idle
  split
  · rfl
  · rw [here, Bool.true_or, if_pos rfl]
  · unfold integer
    rw [scalars, pure_bind]
    cases v <;> first | rfl | cases nothing
  · exact scalars _
  · unfold bare
    rw [here, Bool.true_or, if_pos rfl]
  · rfl

theorem idle_array {xs : List Tree} (o : s.Open) :
    idle s strict q (array xs) =
      if q.type.model?.isSome then .raise .wrappedArray
      else if fits s strict q (array xs) then pure (array xs) else .invalid q.name (array xs) := by
  unfold idle fits
  cases q.type with
  | adapter a => rfl
  | model t =>
    unfold bare
    dsimp only
    rw [o.wraps]
    rfl
  | builtin b => cases b <;> rfl

theorem idle_record {es : Entries} (o : s.Open) (still : q.form? s = none) :
    idle s strict q (record es) =
      if fits s strict q (record es) then pure (record es) else .invalid q.name (record es) := by
  unfold Slot.form? at still
  unfold idle fits
  generalize q.type = u at still
  cases u with
  | adapter a => rfl
  | model t =>
    dsimp only at still
    rw [o.wraps, Bool.true_and] at still
    unfold bare
    dsimp only
    rw [o.wraps, o.instances]
    cases hstr : (s.type t).isStructured with
    | true =>
      rw [hstr] at still
      cases still
    | false => rfl
  | builtin b => cases b <;> rfl

theorem collects_of_fits (fit : Bool) :
    (if fit then pure x else Verdict.invalid name x).Collects false
      (if fit then [] else [.invalidValue name x.text])
      fun y => y = if fit then x else leaf .undefined := by
  cases fit with
  | true => exact .pure rfl
  | false => exact .invalid

/-! ### Storing -/

theorem admitted_eq (rest : Entries) (written : List String) (fields : Entries) :
    admitted s strict t ((key, x) :: rest) written fields =
      match (s.type t).through? key with
      | some p => stored s strict p.slot x >>= fun y =>
          admitted s strict t rest (p.storageKey :: written)
            (Entries.put p.storageKey y (Entries.reveal written key y fields))
      | none =>
        if isReserved key || (s.type t).allowsAdditional then admitted s strict t rest written fields
        else Verdict.signal (.unrecognizedKey key) >>= fun _ =>
          admitted s strict t rest written fields := by
  rw [admitted]
  unfold ModelType.through?
  cases isReserved key with
  | true => rfl
  | false => cases (s.type t).property? key <;> rfl

theorem admitted_get {pending : Entries} {written : List String} {fields out : Entries}
    (mem : k ∈ written) (other : ∀ e ∈ pending, ∀ p, (s.type t).through? e.1 = some p →
      p.storageKey ≠ k)
    (h : (admitted s strict t pending written fields).result = .ok out) :
    out.get k = fields.get k := by
  induction pending generalizing written fields with
  | nil =>
    rw [admitted] at h
    cases h
    rfl
  | cons e rest ih =>
    obtain ⟨key, x⟩ := e
    have ih := fun {written fields} mem => @ih written fields mem fun e he =>
      other e (List.mem_cons_of_mem _ he)
    have other := other (key, x) List.mem_cons_self
    rw [admitted_eq] at h
    cases hp : (s.type t).through? key with
    | some p =>
      rw [hp] at h
      obtain ⟨y, -, h, -⟩ := bind_eq_ok h
      rw [ih (List.mem_cons_of_mem _ mem) h, Entries.get_put, if_neg (other p hp).symm]
      by_cases own : k = key
      · exact Entries.get_reveal (Or.inr (Or.inl (own ▸ mem)))
      · exact Entries.get_reveal (Or.inr (Or.inr own))
    | none =>
      rw [hp] at h
      dsimp only at h
      split at h
      · exact ih mem h
      · obtain ⟨_, -, h, -⟩ := bind_eq_ok h
        exact ih mem h

theorem admitted_collects {pending : Entries} (values : ∀ e ∈ pending, ∀ q : Slot,
      (stored s strict q e.2).Collects (wrapsArray s q e.2) (objections s strict q e.2)
        (Processed s strict q e.2)) (written : List String) (fields : Entries) :
    (admitted s strict t pending written fields).Collects (wrapsArrayUnder s t pending)
      (objectionsUnder s strict t pending) (ProcessedUnder s strict t pending) := by
  induction pending generalizing written fields with
  | nil =>
    rw [admitted, wrapsArrayUnder, objectionsUnder, ProcessedUnder]
    exact .pure trivial
  | cons e rest ih =>
    obtain ⟨key, x⟩ := e
    have ih := ih fun e he => values e (List.mem_cons_of_mem _ he)
    rw [admitted_eq, wrapsArrayUnder, objectionsUnder, ProcessedUnder]
    cases (s.type t).through? key with
    | some p =>
      refine (values (key, x) List.mem_cons_self p.slot).bind fun y _ hy => ?_
      refine (ih _ _).mono fun out hout later => ⟨fun p' hp' other => ?_, later⟩
      obtain rfl := Option.some.inj hp'
      rw [admitted_get List.mem_cons_self other hout, Entries.get_put, if_pos rfl]
      exact hy
    | none =>
      have passes : (admitted s strict t rest written fields).Collects (wrapsArrayUnder s t rest)
          (objectionsUnder s strict t rest) fun fields =>
            (∀ p : Property, none = some p →
              (∀ e ∈ rest, ∀ p', (s.type t).through? e.1 = some p' →
                p'.storageKey ≠ p.storageKey) →
              Processed s strict p.slot x (fields.get p.storageKey)) ∧
            ProcessedUnder s strict t rest fields :=
        (ih written fields).mono fun _ _ later => ⟨nofun, later⟩
      dsimp only
      split
      · exact passes
      · exact (Collects.signal rfl).bind fun _ _ _ => passes

/-- **Bad data never stop collecting, but for an array where a model type is declared.**  All else
that does not fit is reported and left undefined, and what is beside it is processed. -/
theorem stored_collects (o : s.Open) (q : Slot) (x : Tree) :
    (stored s strict q x).Collects (wrapsArray s q x) (objections s strict q x)
      (Processed s strict q x) := by
  induction x using Tree.induct generalizing q with
  | leaf v =>
    rw [stored, wrapsArray, objections, Processed]
    cases hv : v.isNothing with
    | true =>
      rw [idle_nothing hv]
      exact .pure rfl
    | false =>
      rw [idle_there o hv, Bool.false_or, fits]
      cases q.taken? s strict v with
      | none => exact .invalid
      | some w => exact .pure rfl
  | array xs ih =>
    rw [stored, wrapsArray, objections, Processed]
    cases hi : q.items? with
    | none =>
      dsimp only
      rw [idle_array o]
      cases q.type.model?.isSome with
      | true => exact .wrapped
      | false => exact collects_of_fits _
    | some e =>
      -- the items are a recursion of their own, so they get an induction of their own
      have items : (storedItems s strict e xs).Collects (wrapsArrayIn s e xs)
          (objectionsIn s strict e xs) (ProcessedIn s strict e xs) := by
        clear hi
        induction xs with
        | nil =>
          rw [storedItems, wrapsArrayIn, objectionsIn, ProcessedIn]
          exact .pure rfl
        | cons x xs ihs =>
          rw [storedItems, wrapsArrayIn, objectionsIn, ProcessedIn]
          refine (ih x List.mem_cons_self e).bind fun y _ hy => ?_
          exact (ihs fun x hx => ih x (List.mem_cons_of_mem _ hx)).map fun ys hys =>
            ⟨y, ys, rfl, hy, hys⟩
      exact items.map fun ys hys => ⟨ys, rfl, hys⟩
  | record es ih =>
    rw [stored, wrapsArray, objections, Processed]
    cases hf : q.form? s with
    | none =>
      dsimp only
      rw [idle_record o hf]
      exact collects_of_fits _
    | some t =>
      dsimp only
      rw [o.instances, if_pos rfl]
      exact (admitted_collects ih [] es).map fun fields hfields => ⟨fields, rfl, hfields⟩

/-- So a model of a type with properties is made of anything but a record with such an array in it.
What is not a record is reported and makes no fields. -/
theorem constructed_collects (o : s.Open) (hstr : (s.type t).isStructured = true) (strict : Bool)
    (name : Option String) (x : Tree) :
    (constructed s strict name t x).Collects (wrapsArrayUnder s t x.entries)
      ((if x.isNothing || x.isRecord then [] else [.invalidValue name x.text]) ++
        objectionsUnder s strict t x.entries)
      fun y => ∃ fields, y = record fields ∧ ProcessedUnder s strict t x.entries fields := by
  have bare : (if x.isNothing then pure (record [])
      else Verdict.invalid name x >>= fun _ => pure (record [])).Collects
        (wrapsArrayUnder s t [])
        ((if x.isNothing || false then [] else [.invalidValue name x.text]) ++
          objectionsUnder s strict t [])
        fun y => ∃ fields, y = record fields ∧ ProcessedUnder s strict t [] fields := by
    rw [wrapsArrayUnder, objectionsUnder, ProcessedUnder, Bool.or_false, List.append_nil]
    cases x.isNothing with
    | true => exact .pure ⟨[], rfl, trivial⟩
    | false => exact .map .invalid fun _ _ => ⟨[], rfl, trivial⟩
  unfold constructed
  rw [o.instances, hstr]
  cases x with
  | record es =>
    exact (admitted_collects (fun e _ q => stored_collects o q e.2) [] es).map fun fields hfields =>
      ⟨fields, rfl, hfields⟩
  | leaf v => exact bare
  | array xs => exact bare

end Tree

end Overlay
