import Overlay.Proofs.Plain.Storing

/-!
# Strictness and trees

The lenient verdict on a tree records no more than the strict one, and both come to a result or are
stopped by the same error: neither the type of an array's elements nor that of a record's fields
depends on what became of the value.

* `Verdict.Milder` : how a lenient verdict compares with a strict one;
* `Tree.stored_milder`, `Tree.constructed_milder` : storing and constructing.
-/

namespace Overlay

namespace Verdict

variable {α β : Type}

/-- The first verdict records some of the errors that the second one does, in the same order, and
both come to a result or are stopped by the same error. -/
structure Milder (V V' : Verdict α) : Prop where
  /-- The errors are among those of the other one. -/
  signalled : V.signalled.Sublist V'.signalled
  /-- Both end in the same way. -/
  ends : (∃ a a', V.result = .ok a ∧ V'.result = .ok a') ∨
    ∃ e, V.result = .error e ∧ V'.result = .error e

namespace Milder

theorem refl (V : Verdict α) : V.Milder V := by
  refine ⟨.refl _, ?_⟩
  cases h : V.result with
  | ok a => exact Or.inl ⟨a, a, rfl, rfl⟩
  | error e => exact Or.inr ⟨e, rfl, rfl⟩

theorem of_pure (a a' : α) : (pure a : Verdict α).Milder (pure a') :=
  ⟨.refl _, Or.inl ⟨a, a', rfl, rfl⟩⟩

theorem invalid (a : Tree) (name : Option String) (x : Tree) :
    (pure a : Verdict Tree).Milder (Verdict.invalid name x) :=
  ⟨List.nil_sublist _, Or.inl ⟨a, _, rfl, rfl⟩⟩

/-- What goes on from different results may go on in different ways. -/
theorem bind {V V' : Verdict α} {next next' : α → Verdict β} (first : V.Milder V')
    (rest : ∀ a a', (next a).Milder (next' a')) : (V >>= next).Milder (V' >>= next') := by
  rcases first.ends with ⟨a, a', h, h'⟩ | ⟨e, h, h'⟩
  · rw [bind_of_ok h, bind_of_ok h']
    exact ⟨first.signalled.append (rest a a').signalled, (rest a a').ends⟩
  · rw [bind_of_error h, bind_of_error h']
    exact ⟨first.signalled, Or.inr ⟨e, rfl, rfl⟩⟩

end Milder

end Verdict

namespace Tree

open Verdict

variable (s : Schema)

theorem scalar_milder (name : Option String) (b : Builtin) (x : Tree) :
    (scalar false name b x).Milder (scalar true name b x) := by
  cases x with
  | leaf v =>
    unfold scalar
    dsimp only
    split
    · exact .refl _
    · rw [if_neg Bool.false_ne_true, if_pos rfl]
      cases b.converted? v with
      | some w => exact .invalid _ _ _
      | none => exact .refl _
  | _ => exact .refl _

/-- Where the strict number is refused, so is whatever the lenient one would have been. -/
theorem integer_milder (name : Option String) (x : Tree) :
    (integer false name x).Milder (integer true name x) := by
  cases x with
  | leaf v =>
    unfold integer scalar
    dsimp only
    split
    · exact .refl _
    · rw [if_neg Bool.false_ne_true, if_pos rfl]
      change Milder _ (Verdict.invalid name (leaf v))
      cases Builtin.number.converted? v with
      | none => exact .refl _
      | some w =>
        rw [pure_bind]
        split
        · split
          · exact .invalid _ _ _
          · exact .refl _
        · exact .invalid _ _ _
  | _ => exact .refl _

theorem idle_milder (q : Slot) (x : Tree) : (idle s false q x).Milder (idle s true q x) := by
  unfold idle
  split
  · exact .refl _
  · exact .refl _
  · exact integer_milder _ _
  · exact scalar_milder _ _ _
  · exact .refl _
  · exact .refl _

mutual
theorem stored_milder (q : Slot) :
    ∀ x : Tree, (stored s false q x).Milder (stored s true q x)
  | leaf v => idle_milder s q (leaf v)
  | array xs => by
    rw [stored, stored]
    cases q.items? with
    | none => exact idle_milder s q _
    | some e => exact (storedItems_milder e xs).bind fun _ _ => .of_pure _ _
  | record es => by
    rw [stored, stored]
    cases q.form? s with
    | none => exact idle_milder s q _
    | some t =>
      dsimp only
      split
      · exact (admitted_milder t es [] es es).bind fun _ _ => .of_pure _ _
      · exact .refl _
theorem storedItems_milder (e : Slot) :
    ∀ xs : List Tree, (storedItems s false e xs).Milder (storedItems s true e xs)
  | [] => .refl _
  | x :: xs => by
    rw [storedItems, storedItems]
    exact (stored_milder e x).bind fun _ _ => (storedItems_milder e xs).bind fun _ _ =>
      .of_pure _ _
theorem admitted_milder (t : TypeId) : ∀ (es : Entries) (written : List String)
    (fields fields' : Entries),
    (admitted s false t es written fields).Milder (admitted s true t es written fields')
  | [], _, fields, fields' => .of_pure fields fields'
  | (key, x) :: rest, written, fields, fields' => by
    have others := admitted_milder t rest
    rw [admitted, admitted]
    split
    · exact others _ _ _
    · cases (s.type t).property? key with
      | some p => exact (stored_milder p.slot x).bind fun _ _ => others _ _ _
      | none =>
        dsimp only
        split
        · exact others _ _ _
        · exact (Milder.refl _).bind fun _ _ => others _ _ _
end

theorem constructed_milder (name : Option String) (t : TypeId) (x : Tree) :
    (constructed s false name t x).Milder (constructed s true name t x) := by
  unfold constructed
  split
  · exact .refl _
  · split
    · cases x with
      | record es => exact (admitted_milder s t es [] es es).bind fun _ _ => .of_pure _ _
      | leaf v => exact .refl _
      | array xs => exact .refl _
    · exact .refl _

end Tree

end Overlay
