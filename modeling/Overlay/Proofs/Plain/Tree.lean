import Overlay.Heap.Text

/-!
# Trees

A `Tree` is what plain data look like from outside: scalars, arrays of trees and records of trees,
without identities.  `Entries` are the fields of a record in that view, in the order of their keys.

* `Tree.text`, `Tree.depth` : how a tree is shown, and how deep it nests;
* `Entries.get_put`, `Entries.keys_put` : what storing a tree under a key does;
* `Entries.Tidy`, `Tree.Proper` : what the fields of records are like.
-/

namespace Overlay

/-- Plain data, seen from outside. -/
inductive Tree
  /-- A value without parts. -/
  | leaf (v : Value)
  | array (items : List Tree)
  /-- The keys are in the order in which they were first stored. -/
  | record (entries : List (String × Tree))

/-- The fields of a record. -/
abbrev Entries : Type := List (String × Tree)

namespace Tree

instance : Inhabited Tree := ⟨leaf .undefined⟩

/-- A value without parts. -/
def isLeaf : Tree → Bool
  | leaf _ => true
  | _ => false

/-- An array. -/
def isArray : Tree → Bool
  | array _ => true
  | _ => false

/-- A record. -/
def isRecord : Tree → Bool
  | record _ => true
  | _ => false

/-- Absent or null. -/
def isNothing : Tree → Bool
  | leaf v => v.isNothing
  | _ => false

/-- Absent. -/
def isUndefined : Tree → Bool
  | leaf v => v.isUndefined
  | _ => false

/-- The fields, if the tree is a record. -/
def entries : Tree → Entries
  | record es => es
  | _ => []

theorem isUndefined_iff {x : Tree} : x.isUndefined = true ↔ x = leaf .undefined := by
  cases x <;> simp [isUndefined]

mutual
/-- How deep a tree nests, a value without parts being one deep. -/
def depth : Tree → Nat
  | leaf _ => 1
  | array xs => depths xs + 1
  | record es => depthOf es + 1
/-- How deep the deepest of some trees nests. -/
def depths : List Tree → Nat
  | [] => 0
  | x :: xs => max x.depth (depths xs)
/-- How deep the deepest of some fields nests. -/
def depthOf : Entries → Nat
  | [] => 0
  | (_, x) :: es => max x.depth (depthOf es)
end

mutual
/-- The text shown to a reader. -/
def text : Tree → String
  | leaf v => Heap.empty.text v
  | array xs => ",".intercalate (texts xs)
  | record _ => "[object Object]"
/-- The texts of some trees. -/
def texts : List Tree → List String
  | [] => []
  | x :: xs => x.text :: texts xs
end

theorem depthOf_eq (es : Entries) : depthOf es = depths (es.map Prod.snd) := by
  induction es with
  | nil => rfl
  | cons e es ih => rw [depthOf, List.map_cons, depths, ih]

theorem texts_eq (xs : List Tree) : texts xs = xs.map text := by
  induction xs with
  | nil => rfl
  | cons x xs ih => rw [texts, List.map_cons, ih]

theorem depth_le_depths {x : Tree} {xs : List Tree} (h : x ∈ xs) : x.depth ≤ depths xs := by
  induction xs with
  | nil => cases h
  | cons y xs ih =>
    rw [depths]
    rcases List.mem_cons.1 h with rfl | h
    · exact Nat.le_max_left _ _
    · exact Nat.le_trans (ih h) (Nat.le_max_right _ _)

theorem induct {P : Tree → Prop} (leaf : ∀ v, P (.leaf v))
    (array : ∀ xs, (∀ x ∈ xs, P x) → P (.array xs))
    (record : ∀ es : Entries, (∀ e ∈ es, P e.2) → P (.record es)) (x : Tree) : P x := by
  induction hd : x.depth using Nat.strongRecOn generalizing x with
  | ind d ih =>
    cases x with
    | leaf v => exact leaf v
    | array xs =>
      rw [depth] at hd
      exact array xs fun y hy => ih _ (by have := depth_le_depths hy; omega) y rfl
    | record es =>
      rw [depth, depthOf_eq] at hd
      refine record es fun e he => ih _ ?_ e.2 rfl
      have := depth_le_depths (List.mem_map.2 ⟨e, he, rfl⟩ : e.2 ∈ es.map Prod.snd)
      omega

theorem depth_pos (x : Tree) : 0 < x.depth := by
  cases x <;> simp [depth]

end Tree

namespace Entries

/-- The tree under a key, undefined if there is none. -/
def get (key : String) (es : Entries) : Tree := (es.lookup key).getD (.leaf .undefined)

/-- The keys in order. -/
def keys (es : Entries) : List String := es.map Prod.fst

/-- Overwrites the entry with this key, or adds one at the end. -/
def overwrite (key : String) (x : Tree) : Entries → Entries
  | [] => [(key, x)]
  | (k, y) :: rest => if k = key then (k, x) :: rest else (k, y) :: overwrite key x rest

/-- With this tree under the key; the undefined value removes the key. -/
def put (key : String) (x : Tree) (es : Entries) : Entries :=
  if x.isUndefined then es.filter (·.1 ≠ key) else overwrite key x es

/-- With this tree in place of the one under the key, if there is one. -/
def replace (key : String) (x : Tree) (es : Entries) : Entries :=
  es.map fun e => if e.1 = key then (e.1, x) else e

variable {key k : String} {x y : Tree} {es : Entries}

theorem get_cons : get k ((key, x) :: es) = if k = key then x else get k es := by
  unfold get
  rw [List.lookup_cons]
  by_cases hk : k = key
  · rw [if_pos hk, beq_iff_eq.2 hk]
    rfl
  · rw [if_neg hk, beq_false_of_ne hk]

theorem get_of_not_mem (h : key ∉ es.keys) : get key es = .leaf .undefined := by
  induction es with
  | nil => rfl
  | cons e es ih =>
    obtain ⟨k, x⟩ := e
    obtain ⟨h₁, h₂⟩ := not_or.1 (mt List.mem_cons.2 h)
    rw [get_cons, if_neg h₁, ih h₂]

theorem get_of_mem (nodup : es.keys.Nodup) (h : (key, x) ∈ es) : get key es = x := by
  induction es with
  | nil => cases h
  | cons e es ih =>
    obtain ⟨k, y⟩ := e
    obtain ⟨hk, nodup⟩ := List.nodup_cons.1 nodup
    rw [get_cons]
    rcases List.mem_cons.1 h with e | h
    · cases e
      rw [if_pos rfl]
    · have : key ≠ k := fun e => hk (e ▸ List.mem_map.2 ⟨_, h, rfl⟩)
      rw [if_neg this, ih nodup h]

theorem map_get (nodup : es.keys.Nodup) : es.keys.map (fun k => (k, es.get k)) = es := by
  unfold keys
  rw [List.map_map]
  refine (List.map_congr_left fun e he => ?_).trans (List.map_id es)
  exact Prod.ext rfl (get_of_mem nodup he)

theorem exists_of_length_eq {ks : List String} {xs : List Tree} (h : ks.length = xs.length) :
    ∃ es : Entries, ks = es.keys ∧ es.map Prod.snd = xs :=
  ⟨ks.zip xs, (List.map_fst_zip (Nat.le_of_eq h)).symm, List.map_snd_zip (Nat.le_of_eq h.symm)⟩

/-! ### Storing -/

theorem get_overwrite : get k (overwrite key x es) = if k = key then x else get k es := by
  induction es with
  | nil => rw [overwrite, get_cons]
  | cons e es ih =>
    obtain ⟨k', y⟩ := e
    by_cases h : k' = key
    · rw [overwrite, if_pos h, get_cons, get_cons, h]
      split <;> rfl
    · rw [overwrite, if_neg h, get_cons, get_cons, ih]
      by_cases hk : k = k'
      · rw [if_pos hk, if_pos hk, if_neg fun e => h (hk.symm.trans e)]
      · rw [if_neg hk, if_neg hk]

theorem keys_overwrite :
    (overwrite key x es).keys = if key ∈ es.keys then es.keys else es.keys ++ [key] := by
  induction es with
  | nil => rfl
  | cons e es ih =>
    obtain ⟨k', y⟩ := e
    by_cases h : k' = key
    · rw [overwrite, if_pos h, keys, keys, if_pos (by simp [h])]
      rfl
    · have h' : ¬ key = k' := fun e => h e.symm
      simp only [keys, overwrite, if_neg h, List.map_cons, List.mem_cons, h', false_or] at ih ⊢
      rw [ih]
      by_cases hk : key ∈ es.map Prod.fst <;> simp [hk]

theorem get_filter_ne : get k (es.filter (·.1 ≠ key)) =
    if k = key then .leaf .undefined else get k es := by
  induction es with
  | nil => simp [get]
  | cons e es ih =>
    obtain ⟨k', y⟩ := e
    by_cases h : k' = key
    · rw [List.filter_cons_of_neg (by simp [h]), ih, get_cons, h]
      split <;> rfl
    · rw [List.filter_cons_of_pos (by simp [h]), get_cons, get_cons, ih]
      by_cases hk : k = k'
      · rw [if_pos hk, if_pos hk, if_neg fun e => h (hk.symm.trans e)]
      · rw [if_neg hk, if_neg hk]

theorem get_put : get k (put key x es) = if k = key then x else get k es := by
  unfold put
  split
  · rename_i hx
    rw [get_filter_ne, Tree.isUndefined_iff.1 hx]
  · exact get_overwrite

theorem keys_filter (p : String → Bool) :
    keys (es.filter fun e => p e.1) = es.keys.filter p := by
  simp [keys, List.filter_map, Function.comp_def]

theorem keys_put :
    (put key x es).keys =
      if x.isUndefined then es.keys.filter (· ≠ key)
      else if key ∈ es.keys then es.keys else es.keys ++ [key] := by
  unfold put
  split
  · exact keys_filter fun k => k ≠ key
  · exact keys_overwrite

theorem mem_keys_put (h : k ≠ key) : k ∈ (put key x es).keys ↔ k ∈ es.keys := by
  rw [keys_put]
  split
  · simp [h]
  · split <;> simp [h]

theorem get_replace :
    get k (replace key x es) = if k = key ∧ key ∈ es.keys then x else get k es := by
  induction es with
  | nil => simp [replace, get, keys]
  | cons e es ih =>
    obtain ⟨k', y⟩ := e
    unfold replace at ih ⊢
    rw [List.map_cons]
    by_cases h : k' = key
    · rw [if_pos h, get_cons, get_cons, ih, h]
      by_cases hk : k = key
      · rw [if_pos hk, if_pos ⟨hk, by simp [keys]⟩]
      · rw [if_neg hk, if_neg fun e => hk e.1, if_neg fun e => hk e.1, if_neg hk]
    · have mem : key ∈ keys ((k', y) :: es) ↔ key ∈ keys es := by
        have h' : ¬ key = k' := fun e => h e.symm
        simp [keys, h']
      rw [if_neg h, get_cons, get_cons, ih]
      simp only [mem]
      by_cases hk : k = k'
      · rw [if_pos hk, if_pos hk, if_neg fun e => h (hk.symm.trans e.1)]
      · rw [if_neg hk, if_neg hk]

@[simp] theorem keys_replace : (replace key x es).keys = es.keys := by
  simp only [keys, replace, List.map_map]
  refine List.map_congr_left fun e _ => ?_
  simp only [Function.comp_apply]
  split <;> rfl

/-! ### Tidy records -/

/-- No key occurs twice, and under each there is something. -/
structure Tidy (es : Entries) : Prop where
  /-- No key occurs twice. -/
  nodup : es.keys.Nodup
  /-- There is something under each. -/
  defined : ∀ key ∈ es.keys, (es.get key).isUndefined = false

namespace Tidy

theorem defined_mem (tidy : es.Tidy) : ∀ e ∈ es, e.2.isUndefined = false := by
  intro e he
  have found : es.get e.1 = e.2 := get_of_mem tidy.nodup he
  rw [← found]
  exact tidy.defined e.1 (List.mem_map.2 ⟨e, he, rfl⟩)

theorem put (tidy : es.Tidy) (hx : x.isUndefined = false) : (Entries.put key x es).Tidy := by
  have keys : (Entries.put key x es).keys =
      if key ∈ es.keys then es.keys else es.keys ++ [key] := by
    rw [keys_put, hx]
    rfl
  refine ⟨?_, fun k hk => ?_⟩
  · rw [keys]
    split
    · exact tidy.nodup
    · exact nodup_concat tidy.nodup ‹_›
  · rw [get_put]
    split
    · exact hx
    · rename_i hne
      exact tidy.defined k ((mem_keys_put hne).1 hk)

end Tidy

end Entries

/-- All records in the tree are tidy. -/
inductive Tree.Proper : Tree → Prop
  | leaf (v : Value) : Proper (.leaf v)
  | array {xs : List Tree} (items : ∀ x ∈ xs, Proper x) : Proper (.array xs)
  | record {es : Entries} (tidy : es.Tidy) (fields : ∀ e ∈ es, Proper e.2) : Proper (.record es)

theorem Tree.Proper.entries {x : Tree} (proper : x.Proper) : (Tree.record x.entries).Proper := by
  have empty : (Tree.record []).Proper :=
    .record ⟨List.nodup_nil, fun _ h => absurd h List.not_mem_nil⟩ fun _ h =>
      absurd h List.not_mem_nil
  cases x with
  | record es => exact proper
  | leaf v => exact empty
  | array xs => exact empty

end Overlay
