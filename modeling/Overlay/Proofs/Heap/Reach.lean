import Overlay.Heap.Reach
import Overlay.Proofs.Heap.Growth

/-!
# Reachability

`Heap.reach` visits values with a bound on how many it takes.  In a heap without dangling
references the bound is never met: expanding a container takes its references out of those not
followed yet, so values pending and references not followed together never exceed the fuel.

* `Heap.model_mem_reach_iff` : the models among the collected values are the reachable ones;
* `Heap.Extends.wrapper?_eq` : fresh cells make no difference to what is held.
-/

namespace Overlay.Heap

variable {h h' : Heap} {roots : List Value}

/-! ### No dangling references -/

/-- The cell that a value stands for exists. -/
def Holds (h : Heap) : Value → Prop
  | .array a => a.index < h.arrays.size
  | .record r => r.index < h.records.size
  | .model m => m.index < h.models.size
  | _ => True

instance (h : Heap) : (v : Value) → Decidable (h.Holds v)
  | .array a => inferInstanceAs (Decidable (a.index < h.arrays.size))
  | .record r => inferInstanceAs (Decidable (r.index < h.records.size))
  | .model m => inferInstanceAs (Decidable (m.index < h.models.size))
  | .undefined => .isTrue trivial
  | .null => .isTrue trivial
  | .bool _ => .isTrue trivial
  | .number _ => .isTrue trivial
  | .string _ => .isTrue trivial
  | .date _ => .isTrue trivial

/-- The cells of these values exist, and the cells hold such values only. -/
def ClosedOn (h : Heap) (P : Value → Prop) : Prop :=
  ∀ v, P v → h.Holds v ∧ ∀ w ∈ h.children v, P w

/-- Whatever a cell holds exists. -/
def Closed (h : Heap) : Prop := ∀ v, h.Holds v → ∀ w ∈ h.children v, h.Holds w

theorem Closed.closedOn (hc : h.Closed) : h.ClosedOn h.Holds := fun v hv => ⟨hv, hc v hv⟩

theorem Holds.grows {v : Value} (hv : h.Holds v) (g : h.Grows h') : h'.Holds v := by
  cases v with
  | array a => exact Nat.lt_of_lt_of_le hv g.arrays
  | record r => exact Nat.lt_of_lt_of_le hv g.records
  | model m => exact Nat.lt_of_lt_of_le hv g.models.size_le
  | _ => trivial

theorem Reachable.holds {P : Value → Prop} (hP : h.ClosedOn P) (hr : ∀ v ∈ roots, P v) {v : Value}
    (hv : h.Reachable roots v) : P v := by
  induction hv with
  | root mem => exact hr _ mem
  | child _ mem ih => exact (hP _ ih).2 _ mem

/-! ### The references of a heap -/

/-- The containers of a heap. -/
def cells (h : Heap) : List Value :=
  (List.range h.records.size).map (fun i => .record ⟨i⟩)
    ++ (List.range h.arrays.size).map (fun i => .array ⟨i⟩)
    ++ (List.range h.models.size).map fun i => .model ⟨i⟩

theorem nodup_cells (h : Heap) : h.cells.Nodup := by
  have nodup_map : ∀ (f : Nat → Value) (n : Nat), (∀ i j, f i = f j → i = j) →
      ((List.range n).map f).Nodup := by
    intro f n hf
    refine List.pairwise_map.2 (List.nodup_range.imp fun hij e => hij (hf _ _ e))
  unfold cells
  rw [List.nodup_append, List.nodup_append]
  refine ⟨⟨nodup_map _ _ (by simp), nodup_map _ _ (by simp), by simp⟩, nodup_map _ _ (by simp), ?_⟩
  simp only [List.mem_append, List.mem_map]
  rintro v (⟨i, -, rfl⟩ | ⟨i, -, rfl⟩) w ⟨j, -, rfl⟩ e
  · cases e
  · cases e

theorem mem_cells {v : Value} (hv : h.Holds v) (hc : h.children v ≠ []) : v ∈ h.cells := by
  simp only [cells, List.mem_append, List.mem_map, List.mem_range]
  cases v with
  | record r => exact Or.inl (Or.inl ⟨r.index, hv, rfl⟩)
  | array a => exact Or.inl (Or.inr ⟨a.index, hv, rfl⟩)
  | model m => exact Or.inr ⟨m.index, hv, rfl⟩
  | _ => exact absurd rfl hc

theorem closed_of_cells (hc : ∀ v ∈ h.cells, ∀ w ∈ h.children v, h.Holds w) : h.Closed := by
  intro v hv w hw
  refine hc v (mem_cells hv fun e => ?_) w hw
  rw [e] at hw
  cases hw

/-- How many references the containers not seen hold. -/
def unfollowed (h : Heap) (seen : List Value) : Nat :=
  ((h.cells.filter fun v => !seen.contains v).flatMap h.children).length

theorem edges_eq (h : Heap) : h.edges = h.unfollowed [] := by
  have count : ∀ {α β : Type} (cells : Array α) (f : α → List β) (g : Nat → List β),
      (∀ i (hi : i < cells.size), g i = f cells[i]) →
      (cells.toList.flatMap f).length =
        ((List.range cells.size).map fun i => (g i).length).sum := by
    intro α β cells f g hg
    rw [List.length_flatMap]
    congr 1
    refine List.ext_getElem (by simp) fun i h₁ h₂ => ?_
    simp only [List.length_map, Array.length_toList] at h₁
    simp [hg i h₁]
  have records := count h.records (fun cell => cell.fields.values)
    (fun i => h.children (.record ⟨i⟩)) fun i hi => by simp [children, fields, hi]
  have arrays := count h.arrays id (fun i => h.children (.array ⟨i⟩)) fun i hi => by
    simp [children, items, hi]
  have models := count h.models (fun cell => [cell.data]) (fun i => h.children (.model ⟨i⟩))
    fun i hi => by simp [children, data, hi]
  have ones : (h.models.toList.flatMap fun cell => [cell.data]).length = h.models.size := by
    rw [← List.map_eq_flatMap, List.length_map, Array.length_toList]
  have all : (h.cells.filter fun v => !List.contains [] v) = h.cells :=
    List.filter_eq_self.2 fun _ _ => rfl
  rw [ones] at models
  unfold edges unfollowed
  rw [records, arrays, models, all, List.length_flatMap]
  simp only [cells, List.map_append, List.map_map, List.sum_append]
  rfl

/-- Expanding a container takes its references out of those not followed. -/
theorem unfollowed_cons {v : Value} {seen : List Value} (hv : v ∈ h.cells) (hs : v ∉ seen) :
    h.unfollowed (v :: seen) + (h.children v).length = h.unfollowed seen := by
  have key : ∀ l : List Value, l.Nodup → v ∈ l →
      ((l.filter fun w => !(v :: seen).contains w).flatMap h.children).length +
          (h.children v).length =
        ((l.filter fun w => !seen.contains w).flatMap h.children).length := by
    intro l hl hv
    induction l with
    | nil => cases hv
    | cons w l ih =>
      obtain ⟨hw, hl⟩ := List.nodup_cons.1 hl
      by_cases e : v = w
      · subst e
        -- the rest of the cells does not have `v`
        have rest : l.filter (fun w => !(v :: seen).contains w) =
            l.filter fun w => !seen.contains w := by
          refine List.filter_congr fun w hwl => ?_
          have : w ≠ v := fun e => hw (e ▸ hwl)
          simp [this]
        rw [List.filter_cons_of_neg (by simp), List.filter_cons_of_pos (by simp [hs]), rest,
          List.flatMap_cons, List.length_append, Nat.add_comm]
      · have := ih hl ((List.mem_cons.1 hv).resolve_left e)
        have e' : ¬ w = v := fun h => e h.symm
        by_cases hws : w ∈ seen
        · rw [List.filter_cons_of_neg (by simp [hws]), List.filter_cons_of_neg (by simp [hws]),
            this]
        · rw [List.filter_cons_of_pos (by simp [hws, e']), List.filter_cons_of_pos (by simp [hws]),
            List.flatMap_cons, List.flatMap_cons, List.length_append, List.length_append,
            Nat.add_assoc, this]
  exact key _ h.nodup_cells hv

/-! ### The collected values -/

/-- What is collected was seen before, is pending or is reachable from there. -/
theorem visit_sound {fuel : Nat} {seen pending : List Value}
    (hp : ∀ v ∈ pending, h.Reachable roots v) {v : Value} (hv : v ∈ h.visit fuel seen pending) :
    v ∈ seen ∨ h.Reachable roots v := by
  induction fuel generalizing seen pending with
  | zero => exact Or.inl hv
  | succ fuel ih =>
    cases pending with
    | nil => exact Or.inl hv
    | cons w pending =>
      have hw := hp w List.mem_cons_self
      have rest : ∀ v ∈ pending, h.Reachable roots v := fun v hv => hp v (List.mem_cons_of_mem _ hv)
      unfold visit at hv
      split at hv
      · exact ih rest hv
      · have next : ∀ v ∈ h.children w ++ pending, h.Reachable roots v := by
          intro v hv
          rcases List.mem_append.1 hv with hv | hv
          · exact .child hw hv
          · exact rest v hv
        rcases ih next hv with hv | hv
        · rcases List.mem_cons.1 hv with rfl | hv
          · exact Or.inr hw
          · exact Or.inl hv
        · exact Or.inr hv

/-- The value holds nothing, or is among those seen or pending. -/
def Accounted (h : Heap) (seen pending : List Value) (v : Value) : Prop :=
  h.children v = [] ∨ v ∈ seen ∨ v ∈ pending

/-- With fuel for the pending values and the references not followed, everything accounted for is
collected at the end, with all that it holds. -/
theorem visit_complete {P : Value → Prop} (hP : h.ClosedOn P) {fuel : Nat}
    {seen pending : List Value} (hp : ∀ v ∈ pending, P v)
    (hf : pending.length + h.unfollowed seen ≤ fuel)
    (hs : ∀ v ∈ seen, ∀ w ∈ h.children v, h.Accounted seen pending w) :
    (∀ v, h.Accounted seen pending v → h.Accounted (h.visit fuel seen pending) [] v) ∧
      ∀ v ∈ h.visit fuel seen pending, ∀ w ∈ h.children v,
        h.Accounted (h.visit fuel seen pending) [] w := by
  induction fuel generalizing seen pending with
  | zero =>
    obtain rfl : pending = [] := List.length_eq_zero_iff.1 (by omega)
    exact ⟨fun v hv => hv, hs⟩
  | succ fuel ih =>
    cases pending with
    | nil => exact ⟨fun v hv => hv, hs⟩
    | cons w pending =>
      have rest : ∀ v ∈ pending, P v := fun v hv => hp v (List.mem_cons_of_mem _ hv)
      rw [List.length_cons] at hf
      unfold visit
      split
      · rename_i hw
        -- nothing is lost with `w`
        have skip : ∀ v, h.Accounted seen (w :: pending) v → h.Accounted seen pending v := by
          rintro v (hv | hv | hv)
          · exact Or.inl hv
          · exact Or.inr (Or.inl hv)
          · rcases List.mem_cons.1 hv with rfl | hv
            · simp only [Bool.or_eq_true, List.isEmpty_iff, List.contains_iff_mem] at hw
              exact hw.imp_right Or.inl
            · exact Or.inr (Or.inr hv)
        obtain ⟨all, held⟩ := ih rest (by omega) fun v hv u hu => skip u (hs v hv u hu)
        exact ⟨fun v hv => all v (skip v hv), held⟩
      · rename_i hw
        simp only [Bool.or_eq_true, List.isEmpty_iff, List.contains_iff_mem, not_or] at hw
        have enough := unfollowed_cons (h.mem_cells (hP w (hp w List.mem_cons_self)).1 hw.1) hw.2
        have move : ∀ v, h.Accounted seen (w :: pending) v →
            h.Accounted (w :: seen) (h.children w ++ pending) v := by
          rintro v (hv | hv | hv)
          · exact Or.inl hv
          · exact Or.inr (Or.inl (List.mem_cons_of_mem _ hv))
          · rcases List.mem_cons.1 hv with rfl | hv
            · exact Or.inr (Or.inl List.mem_cons_self)
            · exact Or.inr (Or.inr (List.mem_append_right _ hv))
        have next : ∀ v ∈ h.children w ++ pending, P v := by
          intro v hv
          rcases List.mem_append.1 hv with hv | hv
          · exact (hP w (hp w List.mem_cons_self)).2 v hv
          · exact rest v hv
        have closed : ∀ v ∈ w :: seen, ∀ u ∈ h.children v,
            h.Accounted (w :: seen) (h.children w ++ pending) u := by
          intro v hv u hu
          rcases List.mem_cons.1 hv with rfl | hv
          · exact Or.inr (Or.inr (List.mem_append_left _ hu))
          · exact move u (hs v hv u hu)
        obtain ⟨all, held⟩ := ih next (by rw [List.length_append]; omega) closed
        exact ⟨fun v hv => all v (move v hv), held⟩

/-- The models among the collected values are the ones that the roots hold. -/
theorem model_mem_reach_iff {P : Value → Prop} (hP : h.ClosedOn P) (hr : ∀ v ∈ roots, P v)
    {m : ModelId} :
    .model m ∈ h.reach roots ↔ h.Reachable roots (.model m) := by
  constructor
  · intro hm
    exact (visit_sound (fun v hv => .root hv) hm).resolve_left List.not_mem_nil
  · intro hm
    have enough : roots.length + h.unfollowed [] ≤ roots.length + h.edges :=
      edges_eq h ▸ Nat.le_refl _
    obtain ⟨all, held⟩ := visit_complete hP hr enough fun v hv => absurd hv List.not_mem_nil
    have collected : ∀ v, h.Reachable roots v → h.Accounted (h.reach roots) [] v := by
      intro v hv
      induction hv with
      | root mem => exact all _ (Or.inr (Or.inr mem))
      | child _ mem ih =>
        rcases ih with hn | hs | hn
        · rw [hn] at mem
          cases mem
        · exact held _ hs _ mem
        · cases hn
    rcases collected _ hm with hn | hs | hn
    · cases hn
    · exact hs
    · cases hn

theorem holds_of_wrapper? (hc : h.Closed) (hr : ∀ v ∈ roots, h.Holds v) {r : RecordId}
    {m : ModelId} (hm : h.wrapper? roots r = some m) : h.Holds (.model m) := by
  obtain ⟨-, hm⟩ := Option.filter_eq_some_iff.1 hm
  rw [List.contains_iff_mem, model_mem_reach_iff hc.closedOn hr] at hm
  exact hm.holds hc.closedOn hr

/-- The model that is found from a record depends on what is attached to it and on whether that is
held. -/
theorem wrapper?_congr {P Q : Value → Prop} {r : RecordId} (hP : h.ClosedOn P)
    (hr : ∀ v ∈ roots, P v) (hQ : h'.ClosedOn Q) (hr' : ∀ v ∈ roots, Q v)
    (attached : h'.attached? r = h.attached? r) (held : ∀ m, h.attached? r = some m →
      (h'.Reachable roots (.model m) ↔ h.Reachable roots (.model m))) :
    h'.wrapper? roots r = h.wrapper? roots r := by
  unfold wrapper? attachedIn?
  rw [attached]
  cases hm : h.attached? r with
  | none => rfl
  | some m =>
    have same : (h'.reach roots).contains (.model m) = (h.reach roots).contains (.model m) := by
      rw [Bool.eq_iff_iff, List.contains_iff_mem, List.contains_iff_mem,
        model_mem_reach_iff hQ hr', model_mem_reach_iff hP hr, held m hm]
    rw [Option.filter_some, Option.filter_some, same]

/-! ### Fresh cells -/

theorem Extends.children_eq (e : h.Extends h') {v : Value} (hv : h.Holds v) :
    h'.children v = h.children v := by
  cases v with
  | array a => exact congrArg (Option.getD · []) (e.arrays.getElem?_eq hv)
  | record r => simp only [children, fields, e.records.getElem?_eq hv]
  | model m => simp only [children, data, e.models.getElem?_eq hv]
  | _ => rfl

/-- What was closed is closed, whatever the fresh cells hold. -/
theorem Extends.closedOn (e : h.Extends h') (hc : h.Closed) : h'.ClosedOn h.Holds :=
  fun v hv => ⟨hv.grows e.grows, fun w hw => hc v hv w (e.children_eq hv ▸ hw)⟩

theorem Extends.reachable_iff (e : h.Extends h') (hc : h.Closed) (hr : ∀ v ∈ roots, h.Holds v)
    {v : Value} : h'.Reachable roots v ↔ h.Reachable roots v := by
  constructor
  · intro hv
    induction hv with
    | root mem => exact .root mem
    | child held mem ih =>
      exact .child ih (e.children_eq (ih.holds hc.closedOn hr) ▸ mem)
  · intro hv
    induction hv with
    | root mem => exact .root mem
    | child held mem ih =>
      exact .child ih ((e.children_eq (held.holds hc.closedOn hr)).symm ▸ mem)

theorem Extends.attached?_eq (e : h.Extends h') {r : RecordId} (hr : h.Holds (.record r)) :
    h'.attached? r = h.attached? r := by
  rw [attached?, e.records.getElem?_eq hr, attached?]

/-- Fresh cells make no difference to the model that is found from a record. -/
theorem Extends.wrapper?_eq (e : h.Extends h') (hc : h.Closed) (hr : ∀ v ∈ roots, h.Holds v)
    {r : RecordId} (hrec : r.index < h.records.size) :
    h'.wrapper? roots r = h.wrapper? roots r :=
  wrapper?_congr hc.closedOn hr (e.closedOn hc) hr (e.attached?_eq hrec) fun _ _ =>
    e.reachable_iff hc hr

end Overlay.Heap
