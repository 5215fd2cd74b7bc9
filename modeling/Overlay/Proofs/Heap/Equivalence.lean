import Mathlib.Data.List.Forall2
import Overlay.Proofs.Heap.Equality

/-!
# Structural equality as an equivalence

Equality looks at two values from outside, but takes a container to be equal to itself without a
look inside, and so does not notice a NaN in it.  This does no harm: equality is symmetric and
transitive, and every value is equal to itself, NaN alone excepted.

* `Heap.equalWithin_symm`, `Heap.equalWithin_trans` : so it is however deep the look is;
* `Heap.equalWithin_of_nested` : values that do not contain themselves are looked at to the bottom;
* `Heap.equal_record_iff`, `Heap.equal_array_iff` : so what two containers hold is compared by the
  same equality;
* `Heap.equal_structural` : **all of this together**.
-/

namespace Overlay.Heap

variable {h : Heap} {v w u : Value} {vs ws us : List Value} {f g k : Fields} {n d : Nat}
  {eq eq' : Value → Value → Bool}

/-! ### Parts -/

theorem pairwise_iff :
    pairwise eq vs ws = true ↔ List.Forall₂ (fun v w => eq v w = true) vs ws := by
  induction vs generalizing ws with
  | nil => cases ws <;> simp [pairwise]
  | cons v vs ih => cases ws <;> simp [pairwise, ih]

theorem pairwise_symm (symm : ∀ v w, eq v w = true → eq w v = true)
    (same : pairwise eq vs ws = true) : pairwise eq ws vs = true :=
  pairwise_iff.2 ((pairwise_iff.1 same).imp symm).flip

theorem pairwise_trans (trans : ∀ v w u, eq v w = true → eq w u = true → eq v u = true)
    (first : pairwise eq vs ws = true) (second : pairwise eq ws us = true) :
    pairwise eq vs us = true := by
  rw [pairwise_iff] at *
  induction first generalizing us with
  | nil => exact second
  | cons head _ ih =>
    cases second with
    | cons head' tail' => exact .cons (trans _ _ _ head head') (ih tail')

theorem sameFields_symm (symm : ∀ v w, eq v w = true → eq w v = true)
    (same : sameFields eq f g = true) : sameFields eq g f = true := by
  obtain ⟨keys, equal⟩ := sameFields_iff.1 same
  exact sameFields_iff.2
    ⟨fun key => (keys key).symm, fun key mem => symm _ _ (equal key ((keys key).2 mem))⟩

theorem sameFields_trans (trans : ∀ v w u, eq v w = true → eq w u = true → eq v u = true)
    (first : sameFields eq f g = true) (second : sameFields eq g k = true) :
    sameFields eq f k = true := by
  obtain ⟨keys, equal⟩ := sameFields_iff.1 first
  obtain ⟨keys', equal'⟩ := sameFields_iff.1 second
  refine sameFields_iff.2 ⟨fun key => (keys key).trans (keys' key), fun key mem => ?_⟩
  exact trans _ _ _ (equal' key ((keys key).1 mem)) (equal key mem)

/-! ### However deep the look is -/

/-- Two values are equal, given an equality for what they hold. -/
inductive EqualGiven (h : Heap) (eq : Value → Value → Bool) : Value → Value → Prop
  /-- They are the same, without a look inside; NaN is not. -/
  | same {v : Value} (hv : v ≠ .number .nan) : EqualGiven h eq v v
  /-- They are equal numbers. -/
  | number {x y : Binary64} (equal : x.equal y = true) : EqualGiven h eq (.number x) (.number y)
  /-- They are arrays with equal elements. -/
  | array {a b : ArrayId} (inside : pairwise eq (h.items a) (h.items b) = true) :
      EqualGiven h eq (.array a) (.array b)
  /-- They are records with equal fields. -/
  | record {r s : RecordId} (inside : sameFields eq (h.fields r) (h.fields s) = true) :
      EqualGiven h eq (.record r) (.record s)

theorem equalWithin_succ_iff :
    h.equalWithin (n + 1) v w = true ↔ h.EqualGiven (h.equalWithin n) v w := by
  constructor
  · intro equal
    unfold equalWithin at equal
    split at equal
    · exact .same nofun
    · exact .same nofun
    · exact beq_iff_eq.1 equal ▸ .same nofun
    · exact .number equal
    · exact beq_iff_eq.1 equal ▸ .same nofun
    · exact beq_iff_eq.1 equal ▸ .same nofun
    · rcases Bool.or_eq_true_iff.1 equal with same | inside
      · exact beq_iff_eq.1 same ▸ .same nofun
      · exact .array inside
    · rcases Bool.or_eq_true_iff.1 equal with same | inside
      · exact beq_iff_eq.1 same ▸ .same nofun
      · exact .record inside
    · exact beq_iff_eq.1 equal ▸ .same nofun
    · cases equal
  · intro given
    cases given with
    | same hv =>
      cases v with
      | number x => exact Binary64.equal_self_iff.2 fun e => hv (e ▸ rfl)
      | _ => simp [equalWithin]
    | number equal => exact equal
    | array inside => exact Bool.or_eq_true_iff.2 (Or.inr inside)
    | record inside => exact Bool.or_eq_true_iff.2 (Or.inr inside)

theorem equalWithin_symm (n : Nat) (v w : Value) (equal : h.equalWithin n v w = true) :
    h.equalWithin n w v = true := by
  induction n generalizing v w with
  | zero => cases equal
  | succ n ih =>
    rw [equalWithin_succ_iff] at equal ⊢
    cases equal with
    | same hv => exact .same hv
    | number equal => exact .number ((Binary64.equal_comm _ _).trans equal)
    | array inside => exact .array (pairwise_symm ih inside)
    | record inside => exact .record (sameFields_symm ih inside)

/-- Where one of two pairs is the same value twice, the other pair is the result. -/
theorem equalWithin_trans (n : Nat) (v w u : Value) (first : h.equalWithin n v w = true)
    (second : h.equalWithin n w u = true) : h.equalWithin n v u = true := by
  induction n generalizing v w u with
  | zero => cases first
  | succ n ih =>
    rw [equalWithin_succ_iff] at first second ⊢
    cases first with
    | same => exact second
    | number equal =>
      cases second with
      | same => exact .number equal
      | number equal' => exact .number (Binary64.equal_trans equal equal')
    | array inside =>
      cases second with
      | same => exact .array inside
      | array inside' => exact .array (pairwise_trans ih inside inside')
    | record inside =>
      cases second with
      | same => exact .record inside
      | record inside' => exact .record (sameFields_trans ih inside inside')

theorem equalWithin_comm (n : Nat) (v w : Value) :
    h.equalWithin n v w = h.equalWithin n w v :=
  Bool.eq_iff_iff.2 ⟨equalWithin_symm n v w, equalWithin_symm n w v⟩

/-- Values that are nested so deep only are looked at to the bottom. -/
theorem equalWithin_of_nested (nested : h.Nested n v) (le : n ≤ d) :
    h.equalWithin d v w = h.equalWithin n v w := by
  induction n generalizing d v w with
  | zero => exact nested.elim
  | succ n ih =>
    obtain ⟨d, rfl⟩ : ∃ d', d = d' + 1 := ⟨d - 1, by omega⟩
    have inside : ∀ v' ∈ h.children v, ∀ w', h.equalWithin d v' w' = h.equalWithin n v' w' :=
      fun v' hv' w' => ih (nested v' hv') (by omega)
    cases v with
    | array a =>
      cases w with
      | array b => exact congrArg (a == b || ·) (pairwise_congr fun v' hv' w' _ => inside v' hv' w')
      | _ => rfl
    | record r =>
      cases w with
      | record s =>
        refine congrArg (r == s || ·) (sameFields_congr fun v' hv' w' _ => ?_)
        rw [equalWithin_comm d, equalWithin_comm n, inside v' hv']
      | _ => rfl
    | _ => cases w <;> rfl

/-! ### What containers hold -/

/-- What a value holds that does not contain itself is compared by equality itself. -/
theorem equalWithin_eq_equal (hc : h.Closed) (hv : h.Holds v) (acyclic : h.Acyclic v)
    (hw : w ∈ h.children v) : h.equalWithin h.size w u = h.equal w u :=
  (equalWithin_of_nested (nested_of_acyclic hc acyclic hv w hw) (Nat.le_succ _)).symm

/-- Two records are equal if they are the same one, or have the same keys, in whatever order, with
equal values under each. -/
theorem equal_record_iff {r s : RecordId} (hc : h.Closed) (hr : h.Holds (.record r))
    (acyclic : h.Acyclic (.record r)) :
    h.equal (.record r) (.record s) = true ↔ r = s ∨
      (∀ key, key ∈ (h.fields r).keys ↔ key ∈ (h.fields s).keys) ∧
        ∀ key ∈ (h.fields r).keys,
          h.equal ((h.fields r).get key) ((h.fields s).get key) = true := by
  have inside : ∀ key ∈ (h.fields r).keys, ∀ u,
      h.equalWithin h.size u ((h.fields r).get key) = h.equal ((h.fields r).get key) u :=
    fun key mem u => (equalWithin_comm ..).trans (equalWithin_eq_equal hc hr acyclic
      (((h.fields r).get_mem_values key).resolve_right (Fields.mem_keys_iff.1 mem)))
  rw [equal, equalWithin, Bool.or_eq_true, beq_iff_eq, sameFields_iff]
  refine or_congr_right (and_congr_right fun _ => forall₂_congr fun key mem => ?_)
  rw [inside key mem]

/-- Two arrays are equal if they are the same one, or have equal elements in the same places. -/
theorem equal_array_iff {a b : ArrayId} (hc : h.Closed) (ha : h.Holds (.array a))
    (acyclic : h.Acyclic (.array a)) :
    h.equal (.array a) (.array b) = true ↔ a = b ∨
      List.Forall₂ (fun v w => h.equal v w = true) (h.items a) (h.items b) := by
  have inside : pairwise (h.equalWithin h.size) (h.items a) (h.items b) =
      pairwise h.equal (h.items a) (h.items b) :=
    pairwise_congr fun _ hv _ _ => equalWithin_eq_equal hc ha acyclic hv
  rw [equal, equalWithin, Bool.or_eq_true, beq_iff_eq, inside, pairwise_iff]

/-- **Structural equality is symmetric and transitive, and ignores the order of keys.**  Whatever is
nested or shared, equal values are equal the other way round, and values that are equal to the same
one are equal; all values but NaN are equal to themselves.  Records and arrays that do not contain
themselves are equal exactly if they are the same one or hold equal values, under the same keys or
in the same places. -/
theorem equal_structural (hc : h.Closed) :
    (∀ v w, h.equal v w = true → h.equal w v = true) ∧
    (∀ v w u, h.equal v w = true → h.equal w u = true → h.equal v u = true) ∧
    (∀ v, h.equal v v = true ↔ v ≠ .number .nan) ∧
    (∀ r s, h.Holds (.record r) → h.Acyclic (.record r) →
      (h.equal (.record r) (.record s) = true ↔ r = s ∨
        (∀ key, key ∈ (h.fields r).keys ↔ key ∈ (h.fields s).keys) ∧
          ∀ key ∈ (h.fields r).keys,
            h.equal ((h.fields r).get key) ((h.fields s).get key) = true)) ∧
    ∀ a b, h.Holds (.array a) → h.Acyclic (.array a) →
      (h.equal (.array a) (.array b) = true ↔ a = b ∨
        List.Forall₂ (fun v w => h.equal v w = true) (h.items a) (h.items b)) :=
  ⟨equalWithin_symm _, equalWithin_trans _, fun _ => equal_self_iff,
    fun _ _ => equal_record_iff hc, fun _ _ => equal_array_iff hc⟩

/-- A record with a NaN in it, two records that hold it under keys in different orders, and another
record with a NaN. -/
def gauges : Heap :=
  ⟨#[⟨.ofList [("level", .number .nan)], none⟩,
    ⟨.ofList [("name", .string "p"), ("gauge", .record ⟨0⟩)], none⟩,
    ⟨.ofList [("gauge", .record ⟨0⟩), ("name", .string "p")], none⟩,
    ⟨.ofList [("level", .number .nan)], none⟩], #[], #[]⟩

/-- The two that hold the same record are equal, in spite of the NaN; two separate records with a
NaN are not. -/
theorem equal_structural_gauges :
    gauges.Closed ∧ gauges.Nested 3 (.record ⟨1⟩) ∧ gauges.Nested 3 (.record ⟨0⟩) ∧
      gauges.equal (.record ⟨1⟩) (.record ⟨2⟩) = true ∧
      gauges.equal (.record ⟨0⟩) (.record ⟨3⟩) ≠ true := by
  have closed : gauges.Closed := closed_of_cells (by decide)
  have outer : gauges.Nested 3 (.record ⟨1⟩) := by decide
  have inner : gauges.Nested 3 (.record ⟨0⟩) := by decide
  obtain ⟨-, -, -, records, -⟩ := equal_structural closed
  have keys : (gauges.fields ⟨1⟩).keys = ["name", "gauge"] ∧
      (gauges.fields ⟨2⟩).keys = ["gauge", "name"] := by decide
  refine ⟨closed, outer, inner, (records ⟨1⟩ ⟨2⟩ (by decide) outer.acyclic).2 (Or.inr ⟨?_, ?_⟩), ?_⟩
  · intro key
    rw [keys.1, keys.2]
    exact (List.Perm.swap ..).mem_iff
  · decide
  · intro equal
    rcases (records ⟨0⟩ ⟨3⟩ (by decide) inner.acyclic).1 equal with same | ⟨-, values⟩
    · cases same
    · exact absurd (values "level" (by decide)) (by decide)

end Overlay.Heap
