import Overlay.Value

/-!
# Fields of a record

`Fields` is a map from keys to values that keeps its keys in the order in which they were first
stored. Storing the undefined value removes the key, so none is ever held.

* `Fields.get_insert` and `Fields.get_remove` say what can be read afterwards;
* `Fields.keys_insert` and `Fields.keys_remove` say which keys there are, and in which order.
-/

namespace Overlay

/-- The value of the first entry with this key, undefined if there is none. -/
def valueAt (key : String) : List (String × Value) → Value
  | [] => .undefined
  | (k, v) :: rest => if k = key then v else valueAt key rest

/-- Overwrites the entry with this key, or adds one at the end. -/
def putEntry (key : String) (value : Value) : List (String × Value) → List (String × Value)
  | [] => [(key, value)]
  | (k, v) :: rest => if k = key then (k, value) :: rest else (k, v) :: putEntry key value rest

/-- The entries with other keys. -/
def dropEntry (key : String) (entries : List (String × Value)) : List (String × Value) :=
  entries.filter fun e => e.1 ≠ key

section Entries

variable {key k : String} {value : Value} {es : List (String × Value)}

theorem nodup_concat {ks : List String} (h : ks.Nodup) (hk : key ∉ ks) : (ks ++ [key]).Nodup := by
  rw [List.nodup_append]
  refine ⟨h, List.nodup_cons.2 ⟨List.not_mem_nil, List.nodup_nil⟩, fun a ha b hb e => hk ?_⟩
  rw [← List.mem_singleton.1 hb, ← e]
  exact ha

theorem map_fst_putEntry :
    (putEntry key value es).map Prod.fst =
      if key ∈ es.map Prod.fst then es.map Prod.fst else es.map Prod.fst ++ [key] := by
  induction es with
  | nil => rfl
  | cons e es ih =>
    obtain ⟨k, v⟩ := e
    by_cases h : k = key
    · simp [putEntry, h]
    · have h' : ¬ key = k := fun e => h e.symm
      simp only [putEntry, if_neg h, List.map_cons, ih, List.mem_cons, h', false_or]
      split <;> simp

theorem mem_putEntry {e : String × Value} (h : e ∈ putEntry key value es) :
    e ∈ es ∨ e = (key, value) := by
  induction es with
  | nil => exact Or.inr (List.mem_singleton.1 h)
  | cons e' es ih =>
    obtain ⟨k, v⟩ := e'
    by_cases hk : k = key
    · rw [putEntry, if_pos hk, List.mem_cons, hk] at h
      exact h.elim Or.inr fun h => Or.inl (List.mem_cons_of_mem _ h)
    · rw [putEntry, if_neg hk, List.mem_cons] at h
      rcases h with rfl | h
      · exact Or.inl List.mem_cons_self
      · exact (ih h).imp_left (List.mem_cons_of_mem _)

theorem valueAt_putEntry :
    valueAt k (putEntry key value es) = if k = key then value else valueAt k es := by
  induction es with
  | nil => simp [putEntry, valueAt, eq_comm]
  | cons e es ih => obtain ⟨k', v⟩ := e; simp only [putEntry]; grind [valueAt]

theorem valueAt_dropEntry :
    valueAt k (dropEntry key es) = if k = key then .undefined else valueAt k es := by
  induction es with
  | nil => simp [dropEntry, valueAt]
  | cons e es ih => obtain ⟨k', v⟩ := e; simp only [dropEntry, List.filter_cons] at *; grind [valueAt]

end Entries

/-- The fields of a record. -/
structure Fields where
  /-- The keys with their values, oldest key first. -/
  entries : List (String × Value)
  /-- A key occurs once. -/
  nodup : (entries.map Prod.fst).Nodup
  /-- The undefined value is never stored. -/
  stored : ∀ e ∈ entries, e.2 ≠ .undefined
  deriving DecidableEq

namespace Fields

/-- No fields. -/
def empty : Fields := ⟨[], by simp, by simp⟩

instance : Inhabited Fields := ⟨empty⟩

variable (f : Fields)

/-- The keys, oldest first. -/
def keys : List String := f.entries.map Prod.fst

/-- The values in the order of the keys. -/
def values : List Value := f.entries.map Prod.snd

/-- The number of fields. -/
def size : Nat := f.entries.length

/-- The value under a key, undefined if there is none. -/
def get (key : String) : Value := valueAt key f.entries

/-- Whether there is a value under a key. -/
def contains (key : String) : Bool := f.keys.contains key

/-- Without this key. -/
def remove (key : String) : Fields where
  entries := dropEntry key f.entries
  nodup := f.nodup.sublist ((List.filter_sublist).map _)
  stored := fun e he => f.stored e (List.mem_filter.1 he).1

/-- With this value under the key, at the key's place if it has one; the undefined value removes
the key. -/
def insert (key : String) (value : Value) : Fields :=
  if h : value = .undefined then f.remove key
  else
    { entries := putEntry key value f.entries
      nodup := by
        rw [map_fst_putEntry]
        split
        · exact f.nodup
        · rename_i hk
          exact nodup_concat f.nodup hk
      stored := fun e he => (mem_putEntry he).elim (f.stored e) fun e' => by simp [e', h] }

/-- The fields that these entries leave, stored one after the other. -/
def ofList (entries : List (String × Value)) : Fields :=
  entries.foldl (fun f e => f.insert e.1 e.2) empty

variable {f} {key k : String} {value : Value}

@[simp] theorem get_empty : empty.get key = .undefined := rfl

theorem get_remove : (f.remove key).get k = if k = key then .undefined else f.get k :=
  valueAt_dropEntry

theorem get_insert : (f.insert key value).get k = if k = key then value else f.get k := by
  unfold insert
  split
  · rename_i h; subst h; exact get_remove
  · exact valueAt_putEntry

theorem keys_remove : (f.remove key).keys = f.keys.filter (· ≠ key) := by
  simp [keys, remove, dropEntry, List.filter_map, Function.comp_def]

theorem keys_insert (h : value ≠ .undefined) :
    (f.insert key value).keys = if key ∈ f.keys then f.keys else f.keys ++ [key] := by
  rw [insert, dif_neg h]
  exact map_fst_putEntry

theorem insert_undefined : f.insert key .undefined = f.remove key := by simp [insert]

end Fields

end Overlay
