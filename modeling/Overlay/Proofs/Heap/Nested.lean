import Overlay.Proofs.Heap.Attached
import Overlay.Proofs.Heap.Shows

/-!
# How deep values are nested

A walk through what a value holds comes to an end unless the value contains itself.  `Heap.Nested`
bounds the number of values on the way, which a walk with so much fuel does not run out of.

* `Heap.Acyclic` : nothing that the value holds contains itself;
* `Heap.nested_of_acyclic` : such values are nested at most as deep as there are cells;
* `Heap.Nested.acyclic` : values that are nested so deep only do not contain themselves.
-/

namespace Overlay.Heap

variable {h h' : Heap} {v w : Value} {n k : Nat}

/-- At most so many values are held one inside the other, this one and the last one included. -/
def Nested (h : Heap) : Nat → Value → Prop
  | 0, _ => False
  | n + 1, v => ∀ w ∈ h.children v, h.Nested n w

instance (h : Heap) : (n : Nat) → (v : Value) → Decidable (h.Nested n v)
  | 0, _ => .isFalse id
  | n + 1, v =>
    have : DecidablePred (h.Nested n) := instDecidableNested h n
    inferInstanceAs (Decidable (∀ w ∈ h.children v, h.Nested n w))

/-- Nothing that the value holds, and not the value itself, is held by what it holds. -/
def Acyclic (h : Heap) (v : Value) : Prop :=
  ∀ w, h.Reachable [v] w → ∀ u ∈ h.children w, ¬ h.Reachable [u] w

namespace Nested

theorem mono (nested : h.Nested n v) (le : n ≤ k) : h.Nested k v := by
  induction n generalizing k v with
  | zero => exact nested.elim
  | succ n ih =>
    obtain ⟨k, rfl⟩ : ∃ j, k = j + 1 := ⟨k - 1, by omega⟩
    exact fun w hw => ih (nested w hw) (by omega)

theorem reachable (nested : h.Nested n v) (reach : h.Reachable [v] w) : h.Nested n w := by
  induction reach with
  | root mem => exact List.mem_singleton.1 mem ▸ nested
  | child _ mem ih =>
    cases n with
    | zero => exact ih.elim
    | succ n => exact (ih _ mem).mono (Nat.le_succ n)

/-- What is nested so deep only does not contain itself: each round would take a level off. -/
theorem not_reachable_child (nested : h.Nested n v) {u : Value} (hu : u ∈ h.children v) :
    ¬ h.Reachable [u] v := by
  intro reach
  induction n with
  | zero => exact nested
  | succ n ih => exact ih ((nested u hu).reachable reach)

theorem acyclic (nested : h.Nested n v) : h.Acyclic v :=
  fun _ reach _ hu => (nested.reachable reach).not_reachable_child hu

theorem of_extends (nested : h.Nested n v) (e : h.Extends h') (hc : h.Closed) (hv : h.Holds v) :
    h'.Nested n v := by
  induction n generalizing v with
  | zero => exact nested
  | succ n ih =>
    intro w hw
    rw [e.children_eq hv] at hw
    exact ih (nested w hw) (hc v hv w hw)

end Nested

theorem Shows.nested {P : Value → Prop} {vs : List Value} {xs : List Tree} (sh : h.Shows P vs xs)
    (le : Tree.depths xs ≤ n) : ∀ v ∈ vs, h.Nested n v := by
  induction sh generalizing n with
  | nil => exact fun _ mem => absurd mem List.not_mem_nil
  | @leaf v vs xs plain rest ih =>
    rw [Tree.depths, Tree.depth] at le
    obtain ⟨n, rfl⟩ : ∃ k, n = k + 1 := ⟨n - 1, by omega⟩
    refine List.forall_mem_cons.2 ⟨fun w hw => ?_, ih (by omega)⟩
    rw [h.children_of_isScalar plain] at hw
    cases hw
  | array _ _ _ ih₁ ih₂ =>
    rw [Tree.depths, Tree.depth] at le
    obtain ⟨n, rfl⟩ : ∃ k, n = k + 1 := ⟨n - 1, by omega⟩
    exact List.forall_mem_cons.2 ⟨ih₁ (by omega), ih₂ (by omega)⟩
  | record _ _ _ _ ih₁ ih₂ =>
    rw [Tree.depths, Tree.depth, Tree.depthOf_eq] at le
    obtain ⟨n, rfl⟩ : ∃ k, n = k + 1 := ⟨n - 1, by omega⟩
    exact List.forall_mem_cons.2 ⟨ih₁ (by omega), ih₂ (by omega)⟩

theorem Acyclic.child (acyclic : h.Acyclic v) (hw : w ∈ h.children v) : h.Acyclic w :=
  fun x reach => acyclic x (reach.through hw)

/-- Below different cells, each of which leads to the value, there is only so much left. -/
theorem nested_of_path (hc : h.Closed) {path : List Value} (nodup : path.Nodup)
    (cells : ∀ u ∈ path, u ∈ h.cells) (above : ∀ u ∈ path, ∃ x ∈ h.children u, h.Reachable [x] v)
    (length : path.length + n = h.size + 1) (acyclic : h.Acyclic v) (hv : h.Holds v) :
    h.Nested n v := by
  induction n generalizing path v with
  | zero =>
    have := (List.subperm_of_subset nodup fun u hu => cells u hu).length_le
    rw [Shows.length_cells] at this
    omega
  | succ n ih =>
    intro w hw
    have fresh : v ∉ path := fun mem => by
      obtain ⟨x, hx, reach⟩ := above v mem
      exact acyclic v (.root List.mem_cons_self) x hx reach
    have longer : (v :: path).Nodup := List.nodup_cons.2 ⟨fresh, nodup⟩
    refine ih longer ?_ ?_
      (by rw [List.length_cons]; omega) (acyclic.child hw) (hc v hv w hw)
    · exact List.forall_mem_cons.2 ⟨mem_cells hv (List.ne_nil_of_mem hw), cells⟩
    · refine List.forall_mem_cons.2 ⟨⟨w, hw, .root List.mem_cons_self⟩, fun u hu => ?_⟩
      obtain ⟨x, hx, reach⟩ := above u hu
      exact ⟨x, hx, .child reach hw⟩

/-- **A value that does not contain itself is nested at most as deep as there are cells.** -/
theorem nested_of_acyclic (hc : h.Closed) (acyclic : h.Acyclic v) (hv : h.Holds v) :
    h.Nested (h.size + 1) v :=
  nested_of_path hc (List.nodup_nil : ([] : List Value).Nodup) (fun _ hu => nomatch hu)
    (fun _ hu => nomatch hu) (Nat.zero_add _) acyclic hv

theorem Nested.bounded (nested : h.Nested n v) (hc : h.Closed) (hv : h.Holds v) :
    h.Nested (h.size + 1) v :=
  nested_of_acyclic hc nested.acyclic hv

end Overlay.Heap
