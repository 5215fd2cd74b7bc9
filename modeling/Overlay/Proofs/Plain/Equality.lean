import Overlay.Heap.Equality
import Overlay.Proofs.Heap.Shows

/-!
# Equality of trees

Two trees are equal when their leaves are, their elements are, place by place, and their fields are,
in any order.  This is how values compare that show them.

* `Tree.Equal` : equal trees;
* `Heap.Shows.equal`, `Heap.Matches.equal` : values that show equal trees are equal;
* `Tree.leaves`, `Tree.mapLeaves` : the values without parts in a tree, and other ones in their
  place.
-/

namespace Overlay

namespace Tree

/-! ### Leaves -/

mutual
/-- The values without parts, from left to right. -/
def leaves : Tree → List Value
  | leaf v => [v]
  | array xs => leavesOf xs
  | record es => leavesUnder es
/-- Those of some trees. -/
def leavesOf : List Tree → List Value
  | [] => []
  | x :: xs => leaves x ++ leavesOf xs
/-- Those of some fields. -/
def leavesUnder : Entries → List Value
  | [] => []
  | (_, x) :: es => leaves x ++ leavesUnder es
end

mutual
/-- With other values without parts. -/
def mapLeaves (f : Value → Value) : Tree → Tree
  | leaf v => leaf (f v)
  | array xs => array (mapLeavesOf f xs)
  | record es => record (mapLeavesUnder f es)
/-- Some trees with other values. -/
def mapLeavesOf (f : Value → Value) : List Tree → List Tree
  | [] => []
  | x :: xs => mapLeaves f x :: mapLeavesOf f xs
/-- Some fields with other values. -/
def mapLeavesUnder (f : Value → Value) : Entries → Entries
  | [] => []
  | (key, x) :: es => (key, mapLeaves f x) :: mapLeavesUnder f es
end

variable {f : Value → Value} {x y : Tree} {xs : List Tree} {es : Entries} {v : Value} {key : String}

theorem mapLeavesOf_eq (f : Value → Value) (xs : List Tree) :
    mapLeavesOf f xs = xs.map (mapLeaves f) := by
  induction xs with
  | nil => rfl
  | cons x xs ih => rw [mapLeavesOf, List.map_cons, ih]

@[simp] theorem keys_mapLeavesUnder : Entries.keys (mapLeavesUnder f es) = es.keys := by
  induction es with
  | nil => rfl
  | cons e es ih =>
    obtain ⟨key, x⟩ := e
    rw [mapLeavesUnder, Entries.keys, List.map_cons]
    exact congrArg (key :: ·) ih

theorem get_mapLeavesUnder (h : key ∈ es.keys) :
    (mapLeavesUnder f es).get key = mapLeaves f (es.get key) := by
  induction es with
  | nil => cases h
  | cons e es ih =>
    obtain ⟨k, x⟩ := e
    rw [mapLeavesUnder, Entries.get_cons, Entries.get_cons]
    split
    · rfl
    · rename_i other
      exact ih ((List.mem_cons.1 h).resolve_left other)

theorem mem_leavesOf : v ∈ leavesOf xs ↔ ∃ x ∈ xs, v ∈ x.leaves := by
  induction xs with
  | nil => simp [leavesOf]
  | cons x xs ih => simp [leavesOf, ih]

theorem mem_leavesUnder : v ∈ leavesUnder es ↔ ∃ e ∈ es, v ∈ e.2.leaves := by
  induction es with
  | nil => simp [leavesUnder]
  | cons e es ih =>
    obtain ⟨key, x⟩ := e
    simp [leavesUnder, ih]

theorem mem_leaves_array (hx : x ∈ xs) (hv : v ∈ x.leaves) : v ∈ (array xs).leaves :=
  mem_leavesOf.2 ⟨x, hx, hv⟩

theorem mem_leaves_record {e : String × Tree} (he : e ∈ es) (hv : v ∈ e.2.leaves) :
    v ∈ (record es).leaves :=
  mem_leavesUnder.2 ⟨e, he, hv⟩

/-! ### Equality -/

/-- The trees are equal: the same leaves in the same places, whatever the order of keys.  Fields are
compared from the second to the first. -/
inductive Equal : Tree → Tree → Prop
  | leaf {v w : Value} (equal : Heap.empty.equal v w = true) : Equal (.leaf v) (.leaf w)
  | array {xs ys : List Tree} (length : xs.length = ys.length)
      (items : ∀ p ∈ xs.zip ys, Equal p.1 p.2) : Equal (.array xs) (.array ys)
  | record {es fs : Entries} (size : es.length = fs.length) (keys : ∀ e ∈ es, e.1 ∈ fs.keys)
      (fields : ∀ e ∈ es, Equal (fs.get e.1) e.2) : Equal (.record es) (.record fs)

end Tree

namespace Heap

variable {h : Heap} {P : Value → Prop} {v w : Value} {vs ws : List Value} {x y : Tree}
  {xs ys : List Tree}

theorem equalWithin_scalar (hv : v.isScalar = true) (h h' : Heap) (n n' : Nat) :
    h.equalWithin (n + 1) v w = h'.equalWithin (n' + 1) v w := by
  cases v <;> first | (cases w <;> rfl) | cases hv

theorem Shows.pairwise {eq : Value → Value → Bool} (sh : h.Shows P vs xs) (sh' : h.Shows P ws ys)
    (length : xs.length = ys.length)
    (items : ∀ p ∈ xs.zip ys, ∀ v w, h.Shows P [v] [p.1] → h.Shows P [w] [p.2] → eq v w = true) :
    Heap.pairwise eq vs ws = true := by
  induction xs generalizing vs ws ys with
  | nil =>
    obtain rfl := List.eq_nil_of_length_eq_zero sh.length_eq
    obtain rfl := List.eq_nil_of_length_eq_zero (sh'.length_eq.trans length.symm)
    rfl
  | cons x xs ih =>
    obtain - | ⟨y, ys⟩ := ys
    · cases length
    obtain - | ⟨v, vs⟩ := vs
    · cases sh.length_eq
    obtain - | ⟨w, ws⟩ := ws
    · cases sh'.length_eq
    obtain ⟨first, rest⟩ := sh.split
    obtain ⟨first', rest'⟩ := sh'.split
    rw [Heap.pairwise, Bool.and_eq_true]
    exact ⟨items (x, y) List.mem_cons_self v w first first',
      ih rest rest' (Nat.succ.inj length) fun p hp => items p (List.mem_cons_of_mem _ hp)⟩

theorem Shows.sameFields {eq : Value → Value → Bool} {f g : Fields} {es fs : Entries}
    (sh : h.Shows P f.values (es.map Prod.snd)) (sh' : h.Shows P g.values (fs.map Prod.snd))
    (keys : f.keys = es.keys) (keys' : g.keys = fs.keys) (size : es.length = fs.length)
    (sub : ∀ e ∈ es, e.1 ∈ fs.keys)
    (fields : ∀ e ∈ es, ∀ v w, h.Shows P [v] [e.2] → h.Shows P [w] [fs.get e.1] →
      eq w v = true) : Heap.sameFields eq f g = true := by
  have length : ∀ {f : Fields} {es : Entries}, f.keys = es.keys → f.size = es.length := by
    intro f es keys
    have := congrArg List.length keys
    simpa [Fields.keys, Entries.keys, Fields.size] using this
  have nodup := (Shows.tidy keys sh).nodup
  unfold Heap.sameFields
  rw [Bool.and_eq_true, beq_iff_eq, length keys, length keys']
  refine ⟨size, List.all_eq_true.2 ?_⟩
  rintro ⟨key, v⟩ hv
  -- the entry shows one of the first trees, and under its key there is one of the second
  have hkey : key ∈ es.keys := keys ▸ List.mem_map.2 ⟨_, hv, rfl⟩
  obtain ⟨e, he, rfl⟩ := List.mem_map.1 hkey
  have shown := Fields.get_of_mem hv ▸ sh.get keys e.1
  rw [Entries.get_of_mem nodup he] at shown
  have there := (Fields.get_cases g e.1).resolve_right
    (Fields.mem_keys_iff.1 (keys'.symm ▸ sub e he))
  refine List.any_eq_true.2 ⟨_, there, ?_⟩
  rw [Bool.and_eq_true]
  exact ⟨beq_self_eq_true _, fields e he v _ shown (sh'.get keys' e.1)⟩

/-- Values that show equal trees are equal at any depth that reaches their leaves. -/
theorem Shows.equalWithin (e : x.Equal y) (sh : h.Shows P [v] [x]) (sh' : h.Shows P [w] [y])
    (n : Nat) (hx : x.depth ≤ n) (hy : y.depth ≤ n) : h.equalWithin n v w = true := by
  induction e generalizing v w n with
  | @leaf v' w' equal =>
    obtain ⟨e, scalar⟩ := sh.of_isLeaf rfl
    cases e
    obtain ⟨e, -⟩ := sh'.of_isLeaf rfl
    cases e
    obtain ⟨n, rfl⟩ : ∃ m, n = m + 1 := ⟨n - 1, by rw [Tree.depth] at hx; omega⟩
    rw [equalWithin_scalar scalar h .empty n 0]
    exact equal
  | @array xs ys length items ih =>
    obtain ⟨n, rfl⟩ : ∃ m, n = m + 1 := ⟨n - 1, by rw [Tree.depth] at hx; omega⟩
    rw [Tree.depth] at hx hy
    cases sh with
    | array _ inside _ =>
      cases sh' with
      | array _ inside' _ =>
        rw [Heap.equalWithin, Bool.or_eq_true]
        refine Or.inr (inside.pairwise inside' length fun p hp v w hv hw => ?_)
        obtain ⟨h₁, h₂⟩ := List.of_mem_zip hp
        have := Tree.depth_le_depths h₁
        have := Tree.depth_le_depths h₂
        exact ih p hp hv hw n (by omega) (by omega)
  | @record es fs size keys fields ih =>
    obtain ⟨n, rfl⟩ : ∃ m, n = m + 1 := ⟨n - 1, by rw [Tree.depth] at hx; omega⟩
    rw [Tree.depth, Tree.depthOf_eq] at hx hy
    cases sh with
    | @record r _ _ _ _ keys₁ inside _ =>
      cases sh' with
      | @record r' _ _ _ _ keys₂ inside' _ =>
        rw [Heap.equalWithin, Bool.or_eq_true]
        refine Or.inr (inside.sameFields inside' keys₁ keys₂ size keys fun e he v w hv hw => ?_)
        have := Tree.depth_le_depths (List.mem_map.2 ⟨e, he, rfl⟩ : e.2 ∈ es.map Prod.snd)
        have : (fs.get e.1).depth ≤ Tree.depths (fs.map Prod.snd) := by
          obtain ⟨e', he', hk⟩ := List.mem_map.1 (keys e he)
          have tidy := Shows.tidy keys₂ inside'
          rw [← hk, Entries.get_of_mem tidy.nodup he']
          exact Tree.depth_le_depths (List.mem_map.2 ⟨e', he', rfl⟩)
        exact ih e he hw hv n (by omega) (by omega)

/-- Values that show equal trees are equal. -/
theorem Shows.equal (e : x.Equal y) (sh : h.Shows P [v] [x]) (sh' : h.Shows P [w] [y])
    (hP : ∀ v, P v → h.Holds v) : h.equal v w = true :=
  sh.equalWithin e sh' _ (sh.depth_le hP) (sh'.depth_le hP)

/-- The value shows a tree that is equal to this one, from either side. -/
def Matches (h : Heap) (v : Value) (x : Tree) : Prop :=
  ∃ y, h.Shows h.Holds [v] [y] ∧ y.Equal x ∧ x.Equal y

/-- It is equal to every value that shows the tree. -/
theorem Matches.equal (e : h.Matches v x) (sh : h.Shows h.Holds [w] [x]) :
    h.equal v w = true ∧ h.equal w v = true := by
  obtain ⟨y, sh', there, back⟩ := e
  exact ⟨sh'.equal there sh fun _ => id, sh.equal back sh' fun _ => id⟩

end Heap

end Overlay
