import Overlay.Proofs.Plain.Fieldwise

/-!
# What is reported is named

A value that is reported as invalid stands somewhere in the data, and the report names a property:
the innermost one on the way to the value.  On the way from an array to its elements the property is
the same, and on the way from a record to what is under a key of it, it is the property that the key
denotes.

* `Tree.Leads` : the way from a tree in a slot to what is in it;
* `Tree.stored_named` : **a report names the innermost property on the way
  to a value that does not fit.**
-/

namespace Overlay

namespace Tree

variable {s : Schema} {strict : Bool} {t : TypeId} {p p' : Property} {q q' : Slot} {x z : Tree}
  {es : Entries} {err : Error} {name : Option String} {b : Builtin}

/-- A tree in a slot of a property leads to another one: to itself, by way of an element, which is
in a slot of the same property, or by way of an entry that goes through a property of its own. -/
inductive Leads (s : Schema) : Property → Slot → Tree → Property → Slot → Tree → Prop
  /-- It is there. -/
  | here (p : Property) (q : Slot) (x : Tree) : Leads s p q x p q x
  /-- An element leads there. -/
  | item {p p' : Property} {q e q' : Slot} {xs : List Tree} {x z : Tree} (declared : q.items? = some e)
      (mem : x ∈ xs) (rest : Leads s p e x p' q' z) : Leads s p q (.array xs) p' q' z
  /-- An entry leads there. -/
  | field {p own p' : Property} {q q' : Slot} {t : TypeId} {es : Entries} {key : String} {x z : Tree}
      (form : q.form? s = some t) (mem : (key, x) ∈ es) (through : (s.type t).through? key = some own)
      (rest : Leads s own own.slot x p' q' z) : Leads s p q (.record es) p' q' z

theorem Leads.name_eq (leads : Leads s p q x p' q' z) (hq : q.name = some p.name) :
    q'.name = some p'.name := by
  induction leads with
  | here => exact hq
  | item declared _ _ ih =>
    refine ih ?_
    have element := Slot.element?_of_items? declared
    unfold Slot.element? at element
    split at element
    · cases element
    · cases element
      exact hq
  | field _ _ _ _ ih => exact ih rfl

/-- If the error reports a value, it names the innermost property on the way there, and the value
does not fit what is declared for it. -/
def Named (s : Schema) (strict : Bool) (p : Property) (q : Slot) (x : Tree) (err : Error) : Prop :=
  ∀ name text, err = .invalidValue name text → ∃ p' q' z, Leads s p q x p' q' z ∧
    name = some p'.name ∧ text = z.text ∧ z.isNothing = false ∧ z.fits s strict q' = false

/-! ### Values whose parts stay as they are -/

/-- An invalid value is all that is reported. -/
theorem mem_signalled_invalid (h : err ∈ (Verdict.invalid name x).signalled) :
    err = .invalidValue name x.text :=
  List.mem_singleton.1 h

theorem mem_signalled_bare (h : err ∈ (bare s t name x).signalled) :
    err = .invalidValue name x.text ∧ x.isNothing = false ∧ (s.type t).wraps = true ∧
      x.isArray = false ∧ (s.type t).isStructured = true := by
  unfold bare at h
  split at h
  · cases h
  · rename_i there
    simp only [Bool.or_eq_true, Bool.not_eq_true', not_or, Bool.not_eq_true, Bool.not_eq_false]
      at there
    split at h
    · cases h
    · rename_i array
      split at h
      · rename_i structured
        exact ⟨mem_signalled_invalid h, there.1, there.2, Bool.eq_false_iff.2 array, structured⟩
      · split at h <;> cases h

/-- A container under a built-in type is reported unless the type is for containers like it. -/
theorem mem_signalled_container (type : q.type = .builtin b) (container : x.isLeaf = false)
    (h : err ∈ (idle s strict q x).signalled) :
    err = .invalidValue q.name x.text ∧ b ≠ .object ∧ (b = .array → x.isArray = false) := by
  unfold idle at h
  rw [type] at h
  cases b with
  | object => cases h
  | array =>
    dsimp only at h
    split at h
    · cases h
    · rename_i other
      simp only [Bool.or_eq_true, not_or, Bool.not_eq_true] at other
      exact ⟨mem_signalled_invalid h, nofun, fun _ => other.2⟩
  | integer =>
    refine ⟨?_, nofun, nofun⟩
    cases x with
    | leaf v => cases container
    | _ => exact mem_signalled_invalid h
  | _ =>
    refine ⟨?_, nofun, nofun⟩
    cases x with
    | leaf v => cases container
    | _ => exact mem_signalled_invalid h

theorem mem_signalled_idle (still : x.Still s (some q)) (h : err ∈ (idle s strict q x).signalled) :
    err = .invalidValue q.name x.text ∧ x.isNothing = false ∧ x.fits s strict q = false := by
  rcases hq : q.type with b | t | a
  · cases x with
    | leaf v =>
      cases there : v.isNothing with
      | true =>
        rw [idle_nothing there] at h
        cases h
      | false =>
        rw [idle_builtin_there hq there] at h
        rw [fits]
        cases taken : q.taken? s strict v with
        | some w =>
          rw [taken] at h
          cases h
        | none =>
          rw [taken] at h
          exact ⟨mem_signalled_invalid h, there, rfl⟩
    | array xs =>
      obtain ⟨same, object, array⟩ := mem_signalled_container hq rfl h
      refine ⟨same, rfl, ?_⟩
      have array : b ≠ .array := fun e => by cases array e
      rw [fits, hq]
      simp [array, object]
    | record es =>
      obtain ⟨same, object, -⟩ := mem_signalled_container hq rfl h
      refine ⟨same, rfl, ?_⟩
      rw [fits, hq]
      simp [object]
  · unfold idle at h
    rw [hq] at h
    obtain ⟨same, there, wraps, array, structured⟩ := mem_signalled_bare h
    refine ⟨same, there, ?_⟩
    cases x with
    | leaf v =>
      unfold fits Slot.taken?
      rw [hq]
      dsimp only
      rw [structured]
      rfl
    | array xs => cases array
    | record es =>
      -- the fields of such a record go through properties
      have none : q.form? s = none := still
      unfold Slot.form? at none
      rw [hq] at none
      dsimp only at none
      rw [wraps, structured] at none
      cases none
  · unfold idle at h
    rw [hq] at h
    cases h

/-! ### Trees in slots -/

theorem mem_signalled_admitted {written : List String} {fields : Entries}
    (h : err ∈ (admitted s strict t es written fields).signalled) :
    (∃ key x p, (key, x) ∈ es ∧ (s.type t).through? key = some p ∧
      err ∈ (stored s strict p.slot x).signalled) ∨ ∃ key, err = .unrecognizedKey key := by
  rw [admitted_eq_laid, Verdict.signalled_bind_pure] at h
  obtain ⟨⟨key, x⟩, mem, h⟩ := Verdict.mem_signalled_mapM h
  unfold checked at h
  dsimp only at h
  cases hp : (s.type t).through? key with
  | some p =>
    rw [hp] at h
    exact Or.inl ⟨key, x, p, mem, hp, h⟩
  | none =>
    rw [hp] at h
    dsimp only at h
    split at h
    · cases h
    · exact Or.inr ⟨key, List.mem_singleton.1 h⟩

/-- **A report names the innermost property on the way to a value that does not fit.** -/
theorem stored_named (hq : q.name = some p.name) (h : err ∈ (stored s strict q x).signalled) :
    Named s strict p q x err := by
  have idled : ∀ {q : Slot} {x : Tree} {p : Property}, q.name = some p.name → x.Still s (some q) →
      err ∈ (idle s strict q x).signalled → Named s strict p q x err := by
    intro q x p hq still h name text e
    obtain ⟨same, there, misfit⟩ := mem_signalled_idle still h
    cases same.symm.trans e
    exact ⟨p, q, x, .here p q x, hq, rfl, there, misfit⟩
  induction x using Tree.induct generalizing p q with
  | leaf v =>
    rw [stored] at h
    exact idled hq trivial h
  | array xs ih =>
    cases hi : q.items? with
    | none =>
      have still : Still s (some q) (array xs) := hi
      rw [stored_of_still still] at h
      exact idled hq still h
    | some e =>
      rw [stored, hi] at h
      dsimp only at h
      rw [Verdict.signalled_bind_pure, storedItems_eq_mapM] at h
      obtain ⟨x, mem, h⟩ := Verdict.mem_signalled_mapM h
      have element : e.name = some p.name := (Leads.item (s := s) hi mem (.here p e x)).name_eq hq
      intro name text same
      obtain ⟨p', q', z, leads, rest⟩ := ih x mem element h name text same
      exact ⟨p', q', z, .item hi mem leads, rest⟩
  | record es ih =>
    cases hf : q.form? s with
    | none =>
      have still : Still s (some q) (record es) := hf
      rw [stored_of_still still] at h
      exact idled hq still h
    | some t =>
      rw [stored, hf] at h
      dsimp only at h
      split at h
      · rw [Verdict.signalled_bind_pure] at h
        intro name text same
        rcases mem_signalled_admitted h with ⟨key, x, own, mem, through, h⟩ | ⟨key, unrecognized⟩
        · obtain ⟨p', q', z, leads, rest⟩ := ih (key, x) mem (q := own.slot) rfl h name text same
          exact ⟨p', q', z, .field hf mem through leads, rest⟩
        · cases same.symm.trans unrecognized
      · cases h

end Tree

end Overlay
