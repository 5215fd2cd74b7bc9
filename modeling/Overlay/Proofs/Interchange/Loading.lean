import Overlay.Proofs.Heap.Shows
import Overlay.Proofs.Interchange.Trees
import Overlay.Proofs.Snapshot.Extension

/-!
# Values as JSON and back

The JSON tree of a value is that of the tree it shows, whatever is held.  What is loaded from a JSON
tree is a fresh plain tree: new cells, none of them shared, that show the JSON tree with its members
sorted.

* `Interchange.treeOf_shown` : the JSON tree of a value;
* `Heap.Loaded` : fresh plain trees, and what they show;
* `Interchange.loadTree_loaded` : what is loaded from a JSON tree;
* `Interchange.load_treeOf` : what is loaded from the JSON tree of a value.
-/

namespace Overlay

/-! ### To JSON -/

namespace Interchange

open Heap Snapshot

variable {h : Heap} {P : Value → Prop} {v : Value} {vs : List Value} {x : Tree} {xs : List Tree}
  {c : Snapshot.Context} {st : Snapshot.State} {tree : Value → Snapshot.Action Json}

theorem treeItems_run (each : List.Forall₂ (fun v x => tree v c st = (x.json, st)) vs xs) :
    treeItems tree vs c st = (Tree.jsonItems xs, st) := by
  induction each with
  | nil => rfl
  | @cons v x vs xs first _ ih =>
    rw [treeItems, bind_run, first, bind_run, ih, Tree.jsonItems]
    rfl

theorem treeMembers_run {fs : List (String × Value)} {es : Entries}
    (keys : fs.map Prod.fst = es.keys)
    (each : List.Forall₂ (fun v x => tree v c st = (x.json, st)) (fs.map Prod.snd)
      (es.map Prod.snd)) :
    treeMembers tree fs c st = (Tree.jsonMembers es, st) := by
  induction fs generalizing es with
  | nil =>
    obtain rfl : es = [] := List.map_eq_nil_iff.1 keys.symm
    rfl
  | cons f fs ih =>
    obtain ⟨k, v⟩ := f
    obtain - | ⟨⟨k', x⟩, es⟩ := es
    · cases keys
    · obtain ⟨rfl, keys'⟩ : k = k' ∧ fs.map Prod.fst = Entries.keys es := List.cons.inj keys
      obtain ⟨first, rest⟩ := List.forall₂_cons.1 each
      rw [treeMembers, Tree.jsonMembers]
      split
      · exact ih keys' rest
      · rw [bind_run, first, bind_run, ih keys' rest]
        rfl

theorem treeWithin_shown (sh : h.Shows P vs xs) (n : Nat) (le : Tree.depths xs ≤ n)
    (c : Snapshot.Context) (ds : Option (List Diagnostic)) :
    List.Forall₂ (fun v x => treeWithin n v c ⟨h, ds⟩ = (x.json, ⟨h, ds⟩)) vs xs := by
  induction sh generalizing n with
  | nil => exact .nil
  | @leaf v vs xs plain rest ih =>
    rw [Tree.depths, Tree.depth] at le
    refine .cons ?_ (ih n (by omega))
    obtain ⟨n, rfl⟩ : ∃ m, n = m + 1 := ⟨n - 1, by omega⟩
    cases v <;> first | rfl | cases plain
  | @array a vs ys xs mem inside rest ih₁ ih₂ =>
    rw [Tree.depths, Tree.depth] at le
    refine .cons ?_ (ih₂ n (by omega))
    obtain ⟨n, rfl⟩ : ∃ m, n = m + 1 := ⟨n - 1, by omega⟩
    rw [treeWithin]
    rw [bind_run, get_run, bind_run, treeItems_run (ih₁ n (by omega))]
    rfl
  | @record r vs es xs mem keys inside rest ih₁ ih₂ =>
    rw [Tree.depths, Tree.depth, Tree.depthOf_eq] at le
    refine .cons ?_ (ih₂ n (by omega))
    obtain ⟨n, rfl⟩ : ∃ m, n = m + 1 := ⟨n - 1, by omega⟩
    rw [treeWithin]
    rw [bind_run, get_run, bind_run, treeMembers_run keys (ih₁ n (by omega))]
    rfl

/-- The JSON tree of a value is that of the tree it shows. -/
theorem treeOf_shown (sh : h.Shows P [v] [x]) (hP : ∀ v, P v → h.Holds v) (s : Schema)
    (roots : List Value) : treeOf s roots h v = x.json := by
  have le : Tree.depths [x] ≤ h.size + 1 := sh.depths_le hP
  obtain ⟨first, -⟩ := List.forall₂_cons.1 (treeWithin_shown sh (h.size + 1) le ⟨s, roots⟩ none)
  exact congrArg Prod.fst first

end Interchange

/-! ### From JSON -/

namespace Heap

variable {h h' h'' : Heap} {v : Value} {vs : List Value} {x : Tree} {xs : List Tree}
  {cells cells' : List Value}

theorem Trees.cons (first : h.Trees [v] cells) (rest : h.Trees vs cells') :
    h.Trees (v :: vs) (cells ++ cells') := by
  cases first with
  | scalar plain inside =>
    cases inside
    exact .scalar plain rest
  | array inside last =>
    cases last
    rw [List.append_nil]
    exact .array inside rest
  | record free inside last =>
    cases last
    rw [List.append_nil]
    exact .record free inside rest

/-- The second heap has new cells, the values are plain trees of different ones among them, and this
is what they show. -/
structure Loaded (h h' : Heap) (vs : List Value) (xs : List Tree) (cells : List Value) :
    Prop where
  /-- What was there is the same. -/
  more : h.Extends h'
  /-- The values are plain trees. -/
  trees : h'.Trees vs cells
  /-- Their cells are different. -/
  nodup : cells.Nodup
  /-- They are new. -/
  fresh : ∀ v ∈ cells, h'.Holds v ∧ ¬ h.Holds v
  /-- What the values show. -/
  shows : h'.Shows (· ∈ cells) vs xs

namespace Loaded

theorem nil : Loaded h h [] [] [] :=
  ⟨.refl h, .nil, List.nodup_nil, fun _ hv => absurd hv List.not_mem_nil, .nil⟩

theorem leaf (plain : v.isScalar = true) : Loaded h h [v] [.leaf v] [] :=
  ⟨.refl h, .scalar plain .nil, List.nodup_nil, fun _ hv => absurd hv List.not_mem_nil,
    .leaf plain .nil⟩

theorem grow (l : Loaded h h' vs xs cells) (more : h'.Extends h'') :
    Loaded h h'' vs xs cells where
  more := l.more.trans more
  trees := l.trees.of_changesOnly (more.changesOnly []) fun v hv =>
    ⟨(l.fresh v hv).1, List.not_mem_nil⟩
  nodup := l.nodup
  fresh := fun v hv => ⟨(l.fresh v hv).1.grows more.grows, (l.fresh v hv).2⟩
  shows := l.shows.of_changesOnly (more.changesOnly []) fun v hv =>
    ⟨(l.fresh v hv).1, List.not_mem_nil⟩

theorem cons (first : Loaded h h' [v] [x] cells) (rest : Loaded h' h'' vs xs cells') :
    Loaded h h'' (v :: vs) (x :: xs) (cells ++ cells') := by
  have first' := first.grow rest.more
  refine ⟨first'.more, first'.trees.cons rest.trees, ?_, fun u hu => ?_, ?_⟩
  · exact List.nodup_append.2 ⟨first.nodup, rest.nodup, fun u hu w hw e =>
      (rest.fresh w hw).2 (e ▸ (first.fresh u hu).1)⟩
  · rcases List.mem_append.1 hu with hu | hu
    · exact first'.fresh u hu
    · exact ⟨(rest.fresh u hu).1, fun held => (rest.fresh u hu).2 (held.grows first.more.grows)⟩
  · exact (first'.shows.mono fun u hu => List.mem_append_left _ hu).cons
      (rest.shows.mono fun u hu => List.mem_append_right _ hu)

theorem around (inside : Loaded h h' vs xs cells) (more : h'.Extends h'') (new : h''.Holds v)
    (old : ¬ h'.Holds v) (trees : h''.Trees [v] (v :: cells))
    (shows : h''.Shows (· ∈ v :: cells) [v] [x]) : Loaded h h'' [v] [x] (v :: cells) where
  more := inside.more.trans more
  trees := trees
  nodup := List.nodup_cons.2 ⟨fun hv => old (inside.fresh v hv).1, inside.nodup⟩
  fresh := fun u hu => by
    rcases List.mem_cons.1 hu with rfl | hu
    · exact ⟨new, fun held => old (held.grows inside.more.grows)⟩
    · exact (inside.grow more).fresh u hu
  shows := shows

theorem array (inside : Loaded h h' vs xs cells) :
    Loaded h (h'.addArray vs).2 [.array (h'.addArray vs).1] [.array xs]
      (.array (h'.addArray vs).1 :: cells) := by
  let a := (h'.addArray vs).1
  have more : h'.Extends (h'.addArray vs).2 := h'.extends_addArray vs
  have items : (h'.addArray vs).2.items a = vs := (h'.items_addArray vs a).trans (if_pos rfl)
  have inside' := inside.grow more
  refine inside.around more ?_ (Nat.lt_irrefl _) ?_ (.array List.mem_cons_self ?_ .nil)
  · exact Nat.lt_of_lt_of_eq (Nat.lt_succ_self _) (Array.size_push _).symm
  · have trees : (h'.addArray vs).2.Trees [.array a] (.array a :: (cells ++ [])) :=
      .array (items.symm ▸ inside'.trees) .nil
    rwa [List.append_nil] at trees
  · rw [items]
    exact inside'.shows.mono fun u hu => List.mem_cons_of_mem _ hu

theorem record {f : Fields} {es : Entries} (keys : f.keys = es.keys)
    (inside : Loaded h h' f.values (es.map Prod.snd) cells) :
    Loaded h (h'.addRecord f).2 [.record (h'.addRecord f).1] [.record es]
      (.record (h'.addRecord f).1 :: cells) := by
  let r := (h'.addRecord f).1
  have more : h'.Extends (h'.addRecord f).2 := h'.extends_addRecord f
  have fields : (h'.addRecord f).2.fields r = f := (fields_addRecord ..).trans (if_pos rfl)
  have free : (h'.addRecord f).2.attached? r = none :=
    (attached?_addRecord h' f r).trans (attached?_of_size_le h' (Nat.le_refl _))
  have inside' := inside.grow more
  refine inside.around more ?_ (Nat.lt_irrefl _) ?_
    (.record List.mem_cons_self (by rw [fields]; exact keys) ?_ .nil)
  · exact Nat.lt_of_lt_of_eq (Nat.lt_succ_self _) (Array.size_push _).symm
  · have trees : (h'.addRecord f).2.Trees [.record r] (.record r :: (cells ++ [])) :=
      .record free (fields.symm ▸ inside'.trees) .nil
    rwa [List.append_nil] at trees
  · rw [fields]
    exact inside'.shows.mono fun u hu => List.mem_cons_of_mem _ hu

end Loaded

end Heap

namespace Interchange

open Heap

mutual
/-- What is loaded from a JSON tree, if its objects have different keys. -/
theorem loadTree_loaded (j : Json) (proper : j.tree.Proper) (h : Heap) :
    ∃ cells, Loaded h (loadTree j h).2 [(loadTree j h).1] [j.tree] cells := by
  cases j with
  | null => exact ⟨[], .leaf rfl⟩
  | bool b => exact ⟨[], .leaf rfl⟩
  | number x => exact ⟨[], .leaf rfl⟩
  | string s => exact ⟨[], .leaf rfl⟩
  | array items =>
    obtain - | @⟨_, each⟩ := proper
    obtain ⟨cells, inside⟩ := loadItems_loaded items each h
    exact ⟨_, inside.array⟩
  | object members =>
    obtain - | - | @⟨_, tidy, each⟩ := proper
    obtain ⟨cells, keys, inside⟩ := loadMembers_loaded members each h
    have nodup : ((loadMembers members h).1.map Prod.fst).Nodup := keys ▸ tidy.nodup
    have defined : ∀ e ∈ (loadMembers members h).1, e.2 ≠ .undefined := fun e he =>
      inside.shows.defined (fun x hx => by
        rw [Json.entries_eq, List.map_map] at hx
        obtain ⟨m, -, rfl⟩ := List.mem_map.1 hx
        exact m.2.isUndefined_tree) e.2 (List.mem_map.2 ⟨e, he, rfl⟩)
    have fields : (Fields.ofList (loadMembers members h).1).entries = (loadMembers members h).1 :=
      Fields.entries_ofList nodup defined
    have inside' : Loaded h (loadMembers members h).2
        (Fields.ofList (loadMembers members h).1).values ((Json.entries members).map Prod.snd)
        cells := by
      rw [Fields.values, fields]
      exact inside
    exact ⟨_, .record (by rw [Fields.keys, fields, keys]) inside'⟩
theorem loadItems_loaded (items : List Json) (proper : ∀ x ∈ Json.trees items, x.Proper)
    (h : Heap) :
    ∃ cells, Loaded h (loadItems items h).2 (loadItems items h).1 (Json.trees items) cells := by
  cases items with
  | nil => exact ⟨[], .nil⟩
  | cons item rest =>
    obtain ⟨here, others⟩ := List.forall_mem_cons.1 proper
    obtain ⟨cells, first⟩ := loadTree_loaded item here h
    obtain ⟨cells', rest⟩ := loadItems_loaded rest others (loadTree item h).2
    exact ⟨_, first.cons rest⟩
theorem loadMembers_loaded (members : List (String × Json))
    (proper : ∀ e ∈ Json.entries members, e.2.Proper) (h : Heap) :
    ∃ cells, (loadMembers members h).1.map Prod.fst = (Json.entries members).keys ∧
      Loaded h (loadMembers members h).2 ((loadMembers members h).1.map Prod.snd)
        ((Json.entries members).map Prod.snd) cells := by
  cases members with
  | nil => exact ⟨[], rfl, .nil⟩
  | cons m rest =>
    obtain ⟨key, value⟩ := m
    obtain ⟨here, others⟩ := List.forall_mem_cons.1 proper
    obtain ⟨cells, first⟩ := loadTree_loaded value here h
    obtain ⟨cells', keys, rest⟩ := loadMembers_loaded rest others (loadTree value h).2
    exact ⟨_, congrArg (key :: ·) keys, first.cons rest⟩
end

variable {h : Heap} {P : Value → Prop} {v : Value} {x : Tree}

/-- What is loaded from the JSON tree of a value is the tree it shows, once that has gone through
JSON. -/
theorem load_treeOf (sh : h.Shows P [v] [x]) (hP : ∀ v, P v → h.Holds v) (s : Schema)
    (roots : List Value) (h' : Heap) :
    ∃ cells, Loaded h' (load (treeOf s roots h v) h').2 [(load (treeOf s roots h v) h').1]
      [x.reread] cells := by
  have proper : x.reread.Proper := (sh.proper x List.mem_cons_self).reread
  rw [treeOf_shown sh hP]
  exact loadTree_loaded x.json.canonical proper h'

end Interchange

end Overlay
