import Mathlib.Data.List.Nodup
import Mathlib.Data.List.Perm.Subperm
import Overlay.Proofs.Heap.Trees
import Overlay.Proofs.Plain.Tree

/-!
# What values look like

`Heap.Shows` relates values to the trees that they show.  Cells may be shared: only what can be seen
from outside counts.  A cell shows one tree at most, so along a path all cells are different, and a
tree that is shown is no deeper than there are cells.

* `Heap.Shows.unique` : values show one list of trees;
* `Heap.Shows.depth_le` : the bound on the depth;
* `Heap.Shows.text_eq` : the text of a value is that of its tree.
-/

namespace Overlay

theorem Fields.length_keys (f : Fields) : f.keys.length = f.values.length := by
  simp [keys, values]

namespace Heap

variable {h h' : Heap} {P Q : Value → Prop} {vs : List Value} {xs : List Tree} {v : Value} {x : Tree}

/-- The values show these trees, by cells of this kind. -/
inductive Shows (h : Heap) (P : Value → Prop) : List Value → List Tree → Prop
  | nil : Shows h P [] []
  | leaf {v : Value} {vs : List Value} {xs : List Tree} (plain : v.isScalar = true)
      (rest : Shows h P vs xs) : Shows h P (v :: vs) (.leaf v :: xs)
  | array {a : ArrayId} {vs : List Value} {ys xs : List Tree} (mem : P (.array a))
      (inside : Shows h P (h.items a) ys) (rest : Shows h P vs xs) :
      Shows h P (.array a :: vs) (.array ys :: xs)
  | record {r : RecordId} {vs : List Value} {es : Entries} {xs : List Tree} (mem : P (.record r))
      (keys : (h.fields r).keys = es.keys)
      (inside : Shows h P (h.fields r).values (es.map Prod.snd)) (rest : Shows h P vs xs) :
      Shows h P (.record r :: vs) (.record es :: xs)

namespace Shows

theorem mono (sh : h.Shows P vs xs) (hPQ : ∀ v, P v → Q v) : h.Shows Q vs xs := by
  induction sh with
  | nil => exact .nil
  | leaf plain _ ih => exact .leaf plain ih
  | array mem _ _ ih₁ ih₂ => exact .array (hPQ _ mem) ih₁ ih₂
  | record mem keys _ _ ih₁ ih₂ => exact .record (hPQ _ mem) keys ih₁ ih₂

theorem of_changesOnly {cells : List Value} (sh : h.Shows P vs xs) (d : h.ChangesOnly h' cells)
    (hP : ∀ v, P v → h.Holds v ∧ v ∉ cells) : h'.Shows P vs xs := by
  induction sh with
  | nil => exact .nil
  | leaf plain _ ih => exact .leaf plain ih
  | @array a vs ys xs mem _ _ ih₁ ih₂ =>
    obtain ⟨held, untouched⟩ := hP _ mem
    refine .array mem ?_ ih₂
    rw [d.items a held untouched]
    exact ih₁
  | @record r vs es xs mem keys _ _ ih₁ ih₂ =>
    obtain ⟨held, untouched⟩ := hP _ mem
    have fields := d.fields r held untouched
    refine .record mem (by rw [fields]; exact keys) ?_ ih₂
    rw [fields]
    exact ih₁

theorem split (sh : h.Shows P (v :: vs) (x :: xs)) : h.Shows P [v] [x] ∧ h.Shows P vs xs := by
  cases sh with
  | leaf plain rest => exact ⟨.leaf plain .nil, rest⟩
  | array mem inside rest => exact ⟨.array mem inside .nil, rest⟩
  | record mem keys inside rest => exact ⟨.record mem keys inside .nil, rest⟩

theorem cons (first : h.Shows P [v] [x]) (rest : h.Shows P vs xs) :
    h.Shows P (v :: vs) (x :: xs) := by
  cases first with
  | leaf plain _ => exact .leaf plain rest
  | array mem inside _ => exact .array mem inside rest
  | record mem keys inside _ => exact .record mem keys inside rest

theorem exists_of_mem (sh : h.Shows P vs xs) (hv : v ∈ vs) : ∃ x ∈ xs, h.Shows P [v] [x] := by
  have first : ∀ {w : Value} {ws : List Value} {y : Tree} {ys : List Tree},
      h.Shows P [w] [y] → (v ∈ ws → ∃ x ∈ ys, h.Shows P [v] [x]) → v ∈ w :: ws →
        ∃ x ∈ y :: ys, h.Shows P [v] [x] := by
    intro w ws y ys shown rest hv
    rcases List.mem_cons.1 hv with rfl | hv
    · exact ⟨y, List.mem_cons_self, shown⟩
    · obtain ⟨x, hx, shown⟩ := rest hv
      exact ⟨x, List.mem_cons_of_mem _ hx, shown⟩
  induction sh with
  | nil => cases hv
  | leaf plain _ ih => exact first (.leaf plain .nil) ih hv
  | array mem inside _ _ ih => exact first (.array mem inside .nil) ih hv
  | record mem keys inside _ _ ih => exact first (.record mem keys inside .nil) ih hv

/-- Whatever the value leads to shows a tree, by cells of the same kind. -/
theorem reachable {w : Value} (sh : h.Shows P [v] [x]) (reach : h.Reachable [v] w) :
    ∃ y, h.Shows P [w] [y] := by
  induction reach with
  | root mem => exact ⟨x, List.mem_singleton.1 mem ▸ sh⟩
  | child _ mem ih =>
    obtain ⟨y, sh⟩ := ih
    cases sh with
    | leaf plain =>
      rw [h.children_of_isScalar plain] at mem
      cases mem
    | array _ inside =>
      obtain ⟨y, -, sh⟩ := inside.exists_of_mem mem
      exact ⟨y, sh⟩
    | record _ _ inside =>
      obtain ⟨y, -, sh⟩ := inside.exists_of_mem mem
      exact ⟨y, sh⟩

theorem length_eq (sh : h.Shows P vs xs) : vs.length = xs.length := by
  induction sh with
  | nil => rfl
  | leaf _ _ ih => simp [ih]
  | array _ _ _ _ ih => simp [ih]
  | record _ _ _ _ _ ih => simp [ih]

theorem not_model (sh : h.Shows P [v] [x]) : v.isModel = false := by
  cases sh with
  | leaf plain _ => cases v <;> first | rfl | cases plain
  | array _ _ _ => rfl
  | record _ _ _ _ => rfl

theorem of_isLeaf (sh : h.Shows P [v] [x]) (hx : x.isLeaf = true) :
    x = .leaf v ∧ v.isScalar = true := by
  cases sh with
  | leaf plain _ => exact ⟨rfl, plain⟩
  | array _ _ _ => cases hx
  | record _ _ _ _ => cases hx

theorem isNothing_eq (sh : h.Shows P [v] [x]) : x.isNothing = v.isNothing := by
  cases sh <;> rfl

theorem isUndefined_eq (sh : h.Shows P [v] [x]) : x.isUndefined = v.isUndefined := by
  cases sh <;> rfl

theorem isArray_eq (sh : h.Shows P [v] [x]) : x.isArray = v.isArray := by
  cases sh with
  | leaf plain _ => cases v <;> first | rfl | cases plain
  | array _ _ _ => rfl
  | record _ _ _ _ => rfl

theorem isRecord_eq (sh : h.Shows P [v] [x]) : x.isRecord = v.isRecord := by
  cases sh with
  | leaf plain _ => cases v <;> first | rfl | cases plain
  | array _ _ _ => rfl
  | record _ _ _ _ => rfl

/-- Entries are known by their keys and what they show. -/
theorem entries_ext {es es' : Entries} (keys : es.keys = es'.keys)
    (trees : es.map Prod.snd = es'.map Prod.snd) : es = es' := by
  induction es generalizing es' with
  | nil =>
    cases es' with
    | nil => rfl
    | cons _ _ => cases keys
  | cons e es ih =>
    cases es' with
    | nil => cases keys
    | cons e' es' =>
      obtain ⟨h₁, h₂⟩ := List.cons.inj keys
      obtain ⟨h₃, h₄⟩ := List.cons.inj trees
      rw [Prod.ext h₁ h₃, ih h₂ h₄]

/-- Values show one list of trees. -/
theorem unique {ys : List Tree} (sh : h.Shows P vs xs) (sh' : h.Shows Q vs ys) : xs = ys := by
  induction sh generalizing ys with
  | nil => cases sh'; rfl
  | leaf plain _ ih =>
    cases sh' with
    | leaf _ rest => rw [ih rest]
    | array _ _ _ => cases plain
    | record _ _ _ _ => cases plain
  | array _ _ _ ih₁ ih₂ =>
    cases sh' with
    | leaf plain _ => cases plain
    | array _ inside rest => rw [ih₁ inside, ih₂ rest]
  | record _ keys _ _ ih₁ ih₂ =>
    cases sh' with
    | leaf plain _ => cases plain
    | record _ keys' inside rest =>
      rw [entries_ext (keys.symm.trans keys') (ih₁ inside), ih₂ rest]

/-! ### Fields -/

theorem get {f : Fields} {es : Entries} (keys : f.keys = es.keys)
    (sh : h.Shows P f.values (es.map Prod.snd)) (key : String) :
    h.Shows P [f.get key] [es.get key] := by
  unfold Fields.keys Fields.values Fields.get at *
  generalize f.entries = fs at *
  induction fs generalizing es with
  | nil =>
    obtain rfl : es = [] := List.map_eq_nil_iff.1 keys.symm
    exact .leaf rfl .nil
  | cons f fs ih =>
    obtain ⟨k, v⟩ := f
    obtain - | ⟨⟨k', x⟩, es⟩ := es
    · cases keys
    · obtain ⟨rfl, keys'⟩ : k = k' ∧ fs.map Prod.fst = Entries.keys es := List.cons.inj keys
      obtain ⟨first, rest⟩ := sh.split
      rw [valueAt, Entries.get_cons]
      by_cases hk : k = key
      · rw [if_pos hk, if_pos hk.symm]
        exact first
      · rw [if_neg hk, if_neg fun e => hk e.symm]
        exact ih keys' rest

theorem of_get {f : Fields} {es : Entries} (keys : f.keys = es.keys)
    (sh : ∀ key, h.Shows P [f.get key] [es.get key]) : h.Shows P f.values (es.map Prod.snd) := by
  have found : ∀ e ∈ f.entries, h.Shows P [e.2] [es.get e.1] := by
    rintro ⟨key, v⟩ hv
    exact Fields.get_of_mem hv ▸ sh key
  have nodup : (f.entries.map Prod.fst).Nodup := f.nodup
  unfold Fields.keys Fields.values at *
  clear sh
  generalize f.entries = fs at *
  induction fs generalizing es with
  | nil =>
    obtain rfl : es = [] := List.map_eq_nil_iff.1 keys.symm
    exact .nil
  | cons f fs ih =>
    obtain ⟨k, v⟩ := f
    obtain - | ⟨⟨k', x⟩, es⟩ := es
    · cases keys
    · obtain ⟨rfl, keys'⟩ : k = k' ∧ fs.map Prod.fst = Entries.keys es := List.cons.inj keys
      obtain ⟨fresh, nodup⟩ := List.nodup_cons.1 nodup
      have first := found _ List.mem_cons_self
      rw [Entries.get_cons, if_pos rfl] at first
      refine first.cons (ih keys' (fun e he => ?_) nodup)
      have other : e.1 ≠ k := fun h => fresh (h ▸ List.mem_map.2 ⟨e, he, rfl⟩)
      have := found e (List.mem_cons_of_mem _ he)
      rwa [Entries.get_cons, if_neg other] at this

theorem keys_insert {f : Fields} {es : Entries} (keys : f.keys = es.keys) (key : String)
    (sh : h.Shows P [v] [x]) : (f.insert key v).keys = (es.put key x).keys := by
  rw [Entries.keys_put, sh.isUndefined_eq, ← keys]
  by_cases hv : v = .undefined
  · rw [hv, Fields.insert_undefined, Fields.keys_remove]
    rfl
  · rw [Fields.keys_insert hv, if_neg (mt Value.isUndefined_iff.1 hv)]

theorem tidy {f : Fields} {es : Entries} (keys : f.keys = es.keys)
    (sh : h.Shows P f.values (es.map Prod.snd)) : es.Tidy := by
  refine ⟨keys ▸ f.nodup, fun key hk => ?_⟩
  rw [(sh.get keys key).isUndefined_eq]
  have there := Fields.mem_keys_iff.1 (keys ▸ hk)
  cases hv : f.get key <;> first | rfl | exact absurd hv there

theorem proper (sh : h.Shows P vs xs) : ∀ x ∈ xs, x.Proper := by
  induction sh with
  | nil => exact fun _ hx => absurd hx List.not_mem_nil
  | leaf _ _ ih => exact List.forall_mem_cons.2 ⟨.leaf _, ih⟩
  | array _ _ _ ih₁ ih₂ => exact List.forall_mem_cons.2 ⟨.array ih₁, ih₂⟩
  | record _ keys inside _ ih₁ ih₂ =>
    exact List.forall_mem_cons.2 ⟨.record (inside.tidy keys) fun e he =>
      ih₁ _ (List.mem_map.2 ⟨e, he, rfl⟩), ih₂⟩

theorem defined (sh : h.Shows P vs xs) (there : ∀ x ∈ xs, x.isUndefined = false) :
    ∀ v ∈ vs, v ≠ .undefined := by
  induction sh with
  | nil => exact fun _ hv => absurd hv List.not_mem_nil
  | leaf _ _ ih =>
    obtain ⟨first, rest⟩ := List.forall_mem_cons.1 there
    exact List.forall_mem_cons.2 ⟨(fun e => by rw [e] at first; cases first), ih rest⟩
  | array _ _ _ _ ih => exact List.forall_mem_cons.2 ⟨nofun, ih (List.forall_mem_cons.1 there).2⟩
  | record _ _ _ _ _ ih => exact List.forall_mem_cons.2 ⟨nofun, ih (List.forall_mem_cons.1 there).2⟩

/-! ### Depth -/

/-- For every depth down from that of the trees, some cell shows a tree that deep. -/
theorem exists_of_le_depth (sh : h.Shows P vs xs) (d : Nat) (pos : 2 ≤ d)
    (le : d ≤ Tree.depths xs) : ∃ v y, P v ∧ v.isScalar = false ∧ v.isModel = false ∧
      h.Shows P [v] [y] ∧ y.depth = d := by
  induction sh with
  | nil => exact absurd le (by rw [Tree.depths]; omega)
  | leaf _ _ ih =>
    rw [Tree.depths, Tree.depth] at le
    exact ih (by omega)
  | @array a vs ys xs mem inside rest ih₁ ih₂ =>
    rw [Tree.depths] at le
    by_cases top : d = (Tree.array ys).depth
    · exact ⟨.array a, .array ys, mem, rfl, rfl, .array mem inside .nil, top.symm⟩
    · rw [Tree.depth] at le top
      by_cases deep : d ≤ Tree.depths ys
      · exact ih₁ deep
      · exact ih₂ (by omega)
  | @record r vs es xs mem keys inside rest ih₁ ih₂ =>
    rw [Tree.depths] at le
    by_cases top : d = (Tree.record es).depth
    · exact ⟨.record r, .record es, mem, rfl, rfl, .record mem keys inside .nil, top.symm⟩
    · rw [Tree.depth, Tree.depthOf_eq] at le top
      by_cases deep : d ≤ Tree.depths (es.map Prod.snd)
      · exact ih₁ deep
      · exact ih₂ (by omega)

theorem length_cells (h : Heap) : h.cells.length = h.size := by
  simp [cells, size, Nat.add_assoc]

theorem mem_cells_of_container (held : h.Holds v) (scalar : v.isScalar = false)
    (raw : v.isModel = false) : v ∈ h.cells := by
  simp only [cells, List.mem_append, List.mem_map, List.mem_range]
  cases v with
  | record r => exact Or.inl (Or.inl ⟨r.index, held, rfl⟩)
  | array a => exact Or.inl (Or.inr ⟨a.index, held, rfl⟩)
  | model m => cases raw
  | _ => cases scalar

/-- The trees are no deeper than there are cells: those of different depths are different. -/
theorem depths_le (sh : h.Shows P vs xs) (hP : ∀ v, P v → h.Holds v) :
    Tree.depths xs ≤ h.size + 1 := by
  have chosen : ∀ d : Nat, ∃ v, d + 2 ≤ Tree.depths xs → v ∈ h.cells ∧
      ∃ y, h.Shows P [v] [y] ∧ y.depth = d + 2 := by
    intro d
    by_cases le : d + 2 ≤ Tree.depths xs
    · obtain ⟨v, y, mem, scalar, raw, shown, depth⟩ := sh.exists_of_le_depth (d + 2) (by omega) le
      exact ⟨v, fun _ => ⟨mem_cells_of_container (hP v mem) scalar raw, y, shown, depth⟩⟩
    · exact ⟨.undefined, fun h => absurd h le⟩
  choose cell hcell using chosen
  let n := Tree.depths xs - 1
  have nodup : ((List.range n).map cell).Nodup := by
    refine List.Nodup.map_on (fun i hi j hj e => ?_) List.nodup_range
    have hi := List.mem_range.1 hi
    have hj := List.mem_range.1 hj
    obtain ⟨-, y, hy, di⟩ := hcell i (by omega)
    obtain ⟨-, z, hz, dj⟩ := hcell j (by omega)
    rw [e] at hy
    have := List.cons.inj (hy.unique hz)
    rw [this.1] at di
    omega
  have sub : (List.range n).map cell ⊆ h.cells := by
    intro v hv
    obtain ⟨i, hi, rfl⟩ := List.mem_map.1 hv
    exact (hcell i (by have := List.mem_range.1 hi; omega)).1
  have := (List.subperm_of_subset nodup sub).length_le
  rw [List.length_map, List.length_range, length_cells] at this
  omega

theorem depth_le (sh : h.Shows P [v] [x]) (hP : ∀ v, P v → h.Holds v) : x.depth ≤ h.size + 1 := by
  have := sh.depths_le hP
  rwa [Tree.depths, Tree.depths, Nat.max_eq_left (Nat.zero_le _)] at this

/-! ### Texts -/

theorem textWithin_eq (sh : h.Shows P vs xs) (n : Nat) (le : Tree.depths xs ≤ n) :
    vs.map (h.textWithin n) = xs.map Tree.text := by
  induction sh generalizing n with
  | nil => rfl
  | @leaf v vs xs plain rest ih =>
    rw [Tree.depths, Tree.depth] at le
    obtain ⟨n, rfl⟩ : ∃ m, n = m + 1 := ⟨n - 1, by omega⟩
    rw [List.map_cons, List.map_cons, ih (n + 1) (by omega), Tree.text]
    congr 1
    cases v <;> first | rfl | cases plain
  | @array a vs ys xs mem inside rest ih₁ ih₂ =>
    rw [Tree.depths, Tree.depth] at le
    obtain ⟨n, rfl⟩ : ∃ m, n = m + 1 := ⟨n - 1, by omega⟩
    rw [List.map_cons, List.map_cons, ih₂ (n + 1) (by omega), Tree.text, Tree.texts_eq,
      ← ih₁ n (by omega)]
    rfl
  | @record r vs es xs mem keys inside rest ih₁ ih₂ =>
    rw [Tree.depths, Tree.depth] at le
    obtain ⟨n, rfl⟩ : ∃ m, n = m + 1 := ⟨n - 1, by omega⟩
    rw [List.map_cons, List.map_cons, ih₂ (n + 1) (by omega)]
    rfl

/-- The text of a value is that of its tree. -/
theorem text_eq (sh : h.Shows P [v] [x]) (hP : ∀ v, P v → h.Holds v) : h.text v = x.text := by
  have := sh.textWithin_eq (h.size + 1) (sh.depths_le hP)
  exact List.head_eq_of_cons_eq this

end Shows

end Heap

end Overlay
