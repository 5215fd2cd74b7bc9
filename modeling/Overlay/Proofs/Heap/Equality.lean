import Overlay.Heap.Equality
import Overlay.Proofs.Heap.Nested

/-!
# Structural equality and writes

* `Heap.equal_self_iff` : all values but NaN are equal to themselves;
* `Heap.equal_insert` : writing a field makes no difference to values that do not lead to it;
* `Heap.sameFields_iff` : fields are the same key by key, whatever the order of the keys;
* `Heap.Nested.of_resembles` : equal values are nested equally deep;
* `Heap.not_equal_insert` : so no value is equal to one that was written into it.
-/

namespace Overlay.Heap

variable {h : Heap} {r : RecordId} {key : String} {v w x : Value}

/-- All values but NaN are equal to themselves: a container is, without a look inside. -/
theorem equal_self_iff : h.equal v v = true ↔ v ≠ .number .nan := by
  cases v with
  | number y =>
    refine Binary64.equal_self_iff.trans (not_congr ?_)
    exact ⟨fun e => e ▸ rfl, fun e => by cases e; rfl⟩
  | array a => simp [equal, equalWithin]
  | record r => simp [equal, equalWithin]
  | _ => simp [equal, equalWithin]

/-! ### Writing a field -/

section Congruence

variable {eq eq' : Value → Value → Bool}

theorem pairwise_congr {vs ws : List Value} (each : ∀ v ∈ vs, ∀ w ∈ ws, eq v w = eq' v w) :
    pairwise eq vs ws = pairwise eq' vs ws := by
  induction vs generalizing ws with
  | nil => cases ws <;> rfl
  | cons v vs ih =>
    cases ws with
    | nil => rfl
    | cons w ws =>
      rw [pairwise, pairwise, each v List.mem_cons_self w List.mem_cons_self,
        ih fun v hv w hw => each v (List.mem_cons_of_mem _ hv) w (List.mem_cons_of_mem _ hw)]

theorem sameFields_congr {f g : Fields}
    (each : ∀ v ∈ f.values, ∀ w ∈ g.values, eq w v = eq' w v) :
    sameFields eq f g = sameFields eq' f g := by
  unfold sameFields
  congr 1
  rw [Bool.eq_iff_iff, List.all_eq_true, List.all_eq_true]
  refine forall₂_congr fun e he => ?_
  rw [List.any_eq_true, List.any_eq_true]
  refine exists_congr fun e' => and_congr_right fun he' => ?_
  obtain ⟨key, v⟩ := e
  obtain ⟨key', w⟩ := e'
  dsimp only
  rw [each v (List.mem_map.2 ⟨(key, v), he, rfl⟩) w (List.mem_map.2 ⟨(key', w), he', rfl⟩)]

end Congruence

theorem size_insert : (h.insert r key x).size = h.size := by
  simp [size, insert]

theorem fields_insert_of_ne {r' : RecordId} (ne : r' ≠ r) :
    (h.insert r key x).fields r' = h.fields r' := by
  rw [fields_insert, if_neg fun e => ne e.1]

theorem equalWithin_insert {n : Nat} (hv : h.Avoids r v) (hw : h.Avoids r w) :
    (h.insert r key x).equalWithin n v w = h.equalWithin n v w := by
  induction n generalizing v w with
  | zero => rfl
  | succ n ih =>
    unfold equalWithin
    have inside : ∀ v' ∈ h.children v, ∀ w' ∈ h.children w,
        (h.insert r key x).equalWithin n v' w' = h.equalWithin n v' w' :=
      fun v' hv' w' hw' => ih (hv.child hv') (hw.child hw')
    cases v with
    | array a =>
      cases w with
      | array b => exact congrArg (a == b || ·) (pairwise_congr inside)
      | _ => rfl
    | record r₁ =>
      cases w with
      | record r₂ =>
        have first : (h.insert r key x).fields r₁ = h.fields r₁ :=
          fields_insert_of_ne fun e => hv.ne (congrArg Value.record e)
        have second : (h.insert r key x).fields r₂ = h.fields r₂ :=
          fields_insert_of_ne fun e => hw.ne (congrArg Value.record e)
        dsimp only
        rw [first, second, sameFields_congr fun v' hv' w' hw' => ih (hw.child hw') (hv.child hv')]
      | _ => rfl
    | _ => cases w <;> rfl

/-- Writing a field makes no difference to values that do not lead to it. -/
theorem equal_insert (hv : h.Avoids r v) (hw : h.Avoids r w) :
    (h.insert r key x).equal v w = h.equal v w := by
  rw [equal, size_insert, equalWithin_insert hv hw, equal]

/-! ### Equal values and depth -/

/-- One of the values equals the other, with some fuel. -/
def Resembles (h : Heap) (v w : Value) : Prop :=
  ∃ n, h.equalWithin n v w = true ∨ h.equalWithin n w v = true

theorem exists_of_pairwise {eq : Value → Value → Bool} {vs ws : List Value}
    (same : pairwise eq vs ws = true) :
    (∀ v ∈ vs, ∃ w ∈ ws, eq v w = true) ∧ ∀ w ∈ ws, ∃ v ∈ vs, eq v w = true := by
  induction vs generalizing ws with
  | nil => cases ws <;> simp_all [pairwise]
  | cons v vs ih =>
    cases ws with
    | nil => cases same
    | cons w ws =>
      obtain ⟨first, rest⟩ := Bool.and_eq_true_iff.1 same
      obtain ⟨there, back⟩ := ih rest
      refine ⟨List.forall_mem_cons.2 ⟨⟨w, List.mem_cons_self, first⟩, fun u hu => ?_⟩,
        List.forall_mem_cons.2 ⟨⟨v, List.mem_cons_self, first⟩, fun u hu => ?_⟩⟩
      · obtain ⟨x, hx, e⟩ := there u hu
        exact ⟨x, List.mem_cons_of_mem _ hx, e⟩
      · obtain ⟨x, hx, e⟩ := back u hu
        exact ⟨x, List.mem_cons_of_mem _ hx, e⟩

/-- Fields are the same if they have the same keys, in whatever order, with equal values under each:
of as many different keys, none is left over. -/
theorem sameFields_iff {eq : Value → Value → Bool} {f g : Fields} :
    sameFields eq f g = true ↔ (∀ key, key ∈ f.keys ↔ key ∈ g.keys) ∧
      ∀ key ∈ f.keys, eq (g.get key) (f.get key) = true := by
  have sizes : f.size = g.size ↔ f.keys.length = g.keys.length := by
    rw [Fields.keys, Fields.keys, List.length_map, List.length_map, Fields.size, Fields.size]
  unfold sameFields
  rw [Bool.and_eq_true, beq_iff_eq, sizes, List.all_eq_true]
  constructor
  · rintro ⟨size, each⟩
    have found : ∀ e ∈ f.entries, e.1 ∈ g.keys ∧ eq (g.get e.1) e.2 = true := fun e he => by
      obtain ⟨e', he', both⟩ := List.any_eq_true.1 (each e he)
      obtain ⟨same, equal⟩ := Bool.and_eq_true_iff.1 both
      rw [← beq_iff_eq.1 same, Fields.get_of_mem he']
      exact ⟨List.mem_map.2 ⟨e', he', rfl⟩, equal⟩
    have keys : f.keys.Perm g.keys := by
      refine (List.subperm_of_subset f.nodup fun key hkey => ?_).perm_of_length_le
        (Nat.le_of_eq size.symm)
      obtain ⟨e, he, rfl⟩ := List.mem_map.1 hkey
      exact (found e he).1
    refine ⟨fun key => keys.mem_iff, fun key hkey => ?_⟩
    obtain ⟨e, he, rfl⟩ := List.mem_map.1 hkey
    rw [Fields.get_of_mem he]
    exact (found e he).2
  · rintro ⟨keys, equal⟩
    refine ⟨((List.perm_ext_iff_of_nodup f.nodup g.nodup).2 keys).length_eq, ?_⟩
    rintro ⟨key, v⟩ he
    have mem : key ∈ f.keys := List.mem_map.2 ⟨_, he, rfl⟩
    have there := (g.get_cases key).resolve_right (Fields.mem_keys_iff.1 ((keys key).1 mem))
    refine List.any_eq_true.2 ⟨_, there, Bool.and_eq_true_iff.2 ⟨beq_self_eq_true key, ?_⟩⟩
    exact Fields.get_of_mem he ▸ equal key mem

theorem exists_of_sameFields {eq : Value → Value → Bool} {f g : Fields}
    (same : sameFields eq f g = true) :
    (∀ v ∈ f.values, ∃ w ∈ g.values, eq w v = true) ∧
      ∀ w ∈ g.values, ∃ v ∈ f.values, eq w v = true := by
  obtain ⟨keys, equal⟩ := sameFields_iff.1 same
  have there : ∀ (f : Fields) {key}, key ∈ f.keys → f.get key ∈ f.values := fun f key mem =>
    (f.get_mem_values key).resolve_right (Fields.mem_keys_iff.1 mem)
  constructor
  · intro v hv
    obtain ⟨⟨key, v⟩, he, rfl⟩ := List.mem_map.1 hv
    have mem : key ∈ f.keys := List.mem_map.2 ⟨_, he, rfl⟩
    exact ⟨_, there g ((keys key).1 mem), Fields.get_of_mem he ▸ equal key mem⟩
  · intro w hw
    obtain ⟨⟨key, w⟩, he, rfl⟩ := List.mem_map.1 hw
    have mem : key ∈ f.keys := (keys key).2 (List.mem_map.2 ⟨_, he, rfl⟩)
    exact ⟨_, there f mem, Fields.get_of_mem he ▸ equal key mem⟩

/-- What one of two equal values holds is held by the other, or equals something that is. -/
theorem Resembles.child {u : Value} (resembles : h.Resembles v w) (hu : u ∈ h.children v) :
    ∃ x ∈ h.children w, u = x ∨ h.Resembles u x := by
  obtain ⟨n, either⟩ := resembles
  cases n with
  | zero => rcases either with e | e <;> cases e
  | succ n =>
    cases v with
    | array a =>
      cases w with
      | array b =>
        by_cases e : a = b
        · exact ⟨u, e ▸ hu, Or.inl rfl⟩
        · rcases either with both | both
          · have same : pairwise (h.equalWithin n) (h.items a) (h.items b) = true := by
              simpa [equalWithin, e] using both
            obtain ⟨x, hx, eq⟩ := (exists_of_pairwise same).1 u hu
            exact ⟨x, hx, Or.inr ⟨n, Or.inl eq⟩⟩
          · have same : pairwise (h.equalWithin n) (h.items b) (h.items a) = true := by
              simpa [equalWithin, Ne.symm e] using both
            obtain ⟨x, hx, eq⟩ := (exists_of_pairwise same).2 u hu
            exact ⟨x, hx, Or.inr ⟨n, Or.inr eq⟩⟩
      | _ => rcases either with e | e <;> cases e
    | record r =>
      cases w with
      | record r' =>
        by_cases e : r = r'
        · exact ⟨u, e ▸ hu, Or.inl rfl⟩
        · rcases either with both | both
          · have same : sameFields (h.equalWithin n) (h.fields r) (h.fields r') = true := by
              simpa [equalWithin, e] using both
            obtain ⟨x, hx, eq⟩ := (exists_of_sameFields same).1 u hu
            exact ⟨x, hx, Or.inr ⟨n, Or.inr eq⟩⟩
          · have same : sameFields (h.equalWithin n) (h.fields r') (h.fields r) = true := by
              simpa [equalWithin, Ne.symm e] using both
            obtain ⟨x, hx, eq⟩ := (exists_of_sameFields same).2 u hu
            exact ⟨x, hx, Or.inr ⟨n, Or.inl eq⟩⟩
      | _ => rcases either with e | e <;> cases e
    | model m =>
      cases w with
      | model m' =>
        have e : m = m' := by
          rcases either with both | both
          · exact beq_iff_eq.1 both
          · exact (beq_iff_eq.1 both).symm
        exact ⟨u, e ▸ hu, Or.inl rfl⟩
      | _ => rcases either with e | e <;> cases e
    | _ => cases hu

/-- Equal values are nested equally deep. -/
theorem Nested.of_resembles {n : Nat} (nested : h.Nested n w) (resembles : h.Resembles v w) :
    h.Nested n v := by
  induction n generalizing v w with
  | zero => exact nested
  | succ n ih =>
    intro u hu
    obtain ⟨x, hx, rfl | resembles⟩ := resembles.child hu
    · exact nested u hx
    · exact ih (nested x hx) resembles

/-! ### Writing a value into another -/

theorem children_insert_of_ne (ne : v ≠ .record r) :
    (h.insert r key x).children v = h.children v := by
  cases v with
  | record r' =>
    exact congrArg Fields.values (fields_insert_of_ne fun e => ne (congrArg Value.record e))
  | _ => rfl

/-- What leads to a record leads to it whatever is written there. -/
theorem Reachable.insert_self (reach : h.Reachable [v] (.record r)) :
    (h.insert r key x).Reachable [v] (.record r) := by
  have upTo : ∀ u, h.Reachable [v] u →
      (h.insert r key x).Reachable [v] u ∨ (h.insert r key x).Reachable [v] (.record r) := by
    intro u hu
    induction hu with
    | root mem => exact Or.inl (.root mem)
    | @child u y _ mem ih =>
      refine ih.elim (fun ih => ?_) Or.inr
      by_cases e : u = .record r
      · exact Or.inr (e ▸ ih)
      · have mem : y ∈ (h.insert r key x).children u := by
          rw [children_insert_of_ne e]
          exact mem
        exact Or.inl (.child ih mem)
  exact (upTo _ reach).elim id id

theorem Nested.insert {n : Nat} (nested : h.Nested n v) (avoids : h.Avoids r v) :
    (h.insert r key x).Nested n v := by
  induction n generalizing v with
  | zero => exact nested
  | succ n ih =>
    intro u hu
    rw [children_insert_of_ne avoids.ne] at hu
    exact ih (nested u hu) (avoids.child hu)

/-- A value that is written into another one is nested less deep, and so is not equal to it. -/
theorem not_equal_insert {n : Nat} (hr : h.Holds (.record r)) (something : v ≠ .undefined)
    (nested : h.Nested n v) (avoids : h.Avoids r v) (into : h.Reachable [w] (.record r)) :
    (h.insert r key v).equal w v = false := by
  rw [← Bool.not_eq_true]
  intro equal
  have inside : v ∈ (h.insert r key v).children (.record r) := by
    have put : ((h.fields r).insert key v).get key = v := by rw [Fields.get_insert, if_pos rfl]
    have either := Fields.get_mem_values ((h.fields r).insert key v) key
    rw [put] at either
    rw [children, fields_insert, if_pos ⟨rfl, hr⟩]
    exact either.resolve_right something
  -- each round through the other value would take a level off
  have round : ∀ n, ¬ (h.insert r key v).Nested n v := by
    intro n
    induction n with
    | zero => exact id
    | succ n ih =>
      intro nested
      have above := nested.of_resembles ⟨_, Or.inl equal⟩
      exact ih ((above.reachable into.insert_self) v inside)
  exact round n (nested.insert avoids)

end Overlay.Heap
