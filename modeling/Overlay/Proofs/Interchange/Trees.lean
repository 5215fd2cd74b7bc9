import Overlay.Interchange.Values
import Overlay.Proofs.Plain.Equality

/-!
# Plain data as JSON

Plain data and JSON are two kinds of trees.  What goes from one to the other and back loses its
reserved keys and the order of all others, numbers that are not finite and the sign of zero, and its
dates are texts.

* `Tree.json`, `Json.tree` : one as the other;
* `Tree.reread` : a tree that has gone through JSON;
* `Tree.reread_record` : the fields of a record that has.
-/

namespace Overlay

/-! ### One as the other -/

/-- The JSON tree of a value without parts. -/
def Value.json : Value → Json
  | .bool b => .bool b
  | .number x => Interchange.numberTree x
  | .string s => .string s
  | .date t => .string t.isoMillis
  | _ => .null

namespace Json

mutual
/-- A JSON tree as plain data. -/
def tree : Json → Tree
  | .null => .leaf .null
  | .bool b => .leaf (.bool b)
  | .number x => .leaf (.number x)
  | .string s => .leaf (.string s)
  | .array items => .array (trees items)
  | .object members => .record (entries members)
/-- Some JSON trees as plain data. -/
def trees : List Json → List Tree
  | [] => []
  | item :: rest => tree item :: trees rest
/-- Members as fields. -/
def entries : List (String × Json) → Entries
  | [] => []
  | (key, value) :: rest => (key, tree value) :: entries rest
end

theorem trees_eq (items : List Json) : trees items = items.map tree := by
  induction items with
  | nil => rfl
  | cons item rest ih => rw [trees, List.map_cons, ih]

theorem entries_eq (members : List (String × Json)) :
    entries members = members.map fun m => (m.1, m.2.tree) := by
  induction members with
  | nil => rfl
  | cons m rest ih => rw [entries, List.map_cons, ih]

theorem isUndefined_tree (j : Json) : j.tree.isUndefined = false := by
  cases j <;> rfl

end Json

namespace Tree

mutual
/-- The JSON tree of plain data.  Reserved keys are left out. -/
def json : Tree → Json
  | leaf v => v.json
  | array xs => .array (jsonItems xs)
  | record es => .object (jsonMembers es)
/-- The JSON trees of some trees. -/
def jsonItems : List Tree → List Json
  | [] => []
  | x :: xs => json x :: jsonItems xs
/-- The members of fields. -/
def jsonMembers : Entries → List (String × Json)
  | [] => []
  | (key, x) :: es => if isReserved key then jsonMembers es else (key, json x) :: jsonMembers es
end

theorem jsonItems_eq (xs : List Tree) : jsonItems xs = xs.map json := by
  induction xs with
  | nil => rfl
  | cons x xs ih => rw [jsonItems, List.map_cons, ih]

theorem jsonMembers_eq (es : Entries) :
    jsonMembers es = (es.filter fun e => !isReserved e.1).map fun e => (e.1, e.2.json) := by
  induction es with
  | nil => rfl
  | cons e es ih =>
    rw [jsonMembers, ih]
    cases he : isReserved e.1 <;> simp [he]

/-- The tree once it has gone through JSON. -/
def reread (x : Tree) : Tree := x.json.canonical.tree

end Tree

/-! ### Sorting -/

namespace Json

theorem insertSorted_perm {key : String} (value : Json) {sorted : List (String × Json)}
    (fresh : key ∉ sorted.map Prod.fst) :
    (insertSorted key value sorted).Perm ((key, value) :: sorted) := by
  induction sorted with
  | nil => exact .refl _
  | cons m rest ih =>
    obtain ⟨k, v⟩ := m
    obtain ⟨other, fresh⟩ := not_or.1 (mt List.mem_cons.2 fresh)
    rw [insertSorted, if_neg other]
    split
    · exact .refl _
    · exact ((ih fresh).cons _).trans (.swap _ _ _)

/-- Members with different keys are all there, in another order. -/
theorem canonicalMembers_perm {sorted members : List (String × Json)}
    (nodup : (sorted.map Prod.fst ++ members.map Prod.fst).Nodup) :
    (canonicalMembers sorted members).Perm
      (sorted ++ members.map fun m => (m.1, m.2.canonical)) := by
  induction members generalizing sorted with
  | nil =>
    rw [canonicalMembers, List.map_nil, List.append_nil]
  | cons m rest ih =>
    obtain ⟨key, value⟩ := m
    have fresh : key ∉ sorted.map Prod.fst := fun h =>
      (List.nodup_append.1 nodup).2.2 _ h _ List.mem_cons_self rfl
    have put := insertSorted_perm value.canonical fresh
    have moved : ((insertSorted key value.canonical sorted).map Prod.fst ++
        rest.map Prod.fst).Perm (sorted.map Prod.fst ++ ((key, value) :: rest).map Prod.fst) :=
      ((put.map Prod.fst).append_right _).trans List.perm_middle.symm
    rw [canonicalMembers, List.map_cons]
    exact (ih (moved.nodup_iff.2 nodup)).trans ((put.append_right _).trans List.perm_middle.symm)

theorem canonicalItems_eq (items : List Json) : canonicalItems items = items.map canonical := by
  induction items with
  | nil => rfl
  | cons item rest ih => rw [canonicalItems, List.map_cons, ih]

end Json

namespace Tree

variable {v : Value} {xs : List Tree} {es : Entries}

theorem reread_leaf (v : Value) : (leaf v).reread = v.json.tree := by
  have still : v.json.canonical = v.json := by
    cases v with
    | number x =>
      unfold Value.json Interchange.numberTree
      dsimp only
      split
      · rfl
      · split <;> rfl
    | _ => rfl
  rw [reread, json, still]

theorem reread_array (xs : List Tree) : (array xs).reread = array (xs.map reread) := by
  rw [reread, json, Json.canonical, Json.tree, Json.trees_eq, Json.canonicalItems_eq, jsonItems_eq,
    List.map_map, List.map_map]
  rfl

/-- All fields are there but the reserved ones, in another order. -/
theorem reread_record (nodup : es.keys.Nodup) :
    ∃ es' : Entries, (record es).reread = record es' ∧
      es'.Perm ((es.filter fun e => !isReserved e.1).map fun e => (e.1, e.2.reread)) := by
  refine ⟨_, by rw [reread, json, Json.canonical, Json.tree, Json.entries_eq], ?_⟩
  rw [jsonMembers_eq]
  have keys : (([] : List (String × Json)).map Prod.fst ++
      ((es.filter fun e => !isReserved e.1).map fun e => (e.1, e.2.json)).map Prod.fst).Nodup := by
    rw [List.map_map]
    exact nodup.sublist (List.filter_sublist.map _)
  refine ((Json.canonicalMembers_perm keys).map _).trans ?_
  rw [List.nil_append, List.map_map, List.map_map]
  exact .refl _

theorem tidy_reread {es es' : Entries} (nodup : es.keys.Nodup)
    (perm : es'.Perm (es.map fun e => (e.1, e.2.reread))) : es'.Tidy := by
  have keys : es'.keys.Perm es.keys := by
    have moved := perm.map Prod.fst
    rwa [List.map_map] at moved
  have nodup' := keys.nodup_iff.2 nodup
  refine ⟨nodup', fun key hkey => ?_⟩
  obtain ⟨e', he', rfl⟩ := List.mem_map.1 hkey
  rw [Entries.get_of_mem nodup' he']
  obtain ⟨e, -, rfl⟩ := List.mem_map.1 (perm.mem_iff.1 he')
  exact Json.isUndefined_tree _

theorem Proper.reread {x : Tree} (proper : x.Proper) : x.reread.Proper := by
  induction proper with
  | leaf v =>
    rw [reread_leaf]
    cases v with
    | number n =>
      unfold Value.json Interchange.numberTree
      dsimp only
      split
      · exact .leaf _
      · split <;> exact .leaf _
    | _ => exact .leaf _
  | @array xs items ih =>
    rw [reread_array]
    refine .array fun y hy => ?_
    obtain ⟨x, hx, rfl⟩ := List.mem_map.1 hy
    exact ih x hx
  | @record es tidy fields ih =>
    obtain ⟨es', e, perm⟩ := reread_record tidy.nodup
    rw [e]
    refine .record (tidy_reread (tidy.nodup.sublist (List.filter_sublist.map _)) perm)
      fun e' he' => ?_
    obtain ⟨e, he, rfl⟩ := List.mem_map.1 (perm.mem_iff.1 he')
    exact ih e (List.mem_filter.1 he).1

end Tree

end Overlay
