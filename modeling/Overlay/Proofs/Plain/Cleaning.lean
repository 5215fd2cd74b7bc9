import Overlay.Proofs.Plain.Storing

/-!
# What a snapshot shows of a tree

A snapshot goes by the slots of a tree: of a record whose slot declares a type with properties it
keeps the persisted fields, and the additional ones if the type allows them.  What no slot is
declared for stays as it is.

* `Tree.cleaned` : what is shown of a tree in a slot;
* `Tree.keys_cleanedEntries`, `Tree.get_cleanedEntries` : of a record, key by key;
* `Tree.cleaned_cleaned` : a snapshot of what is shown shows the same.
-/

namespace Overlay

/-- A snapshot keeps what is under the key. -/
def ModelType.keeps (t : ModelType) (key : String) : Bool :=
  !isReserved key && (t.property? key).elim t.allowsAdditional Property.isPersisted

namespace Tree

mutual
/-- What a snapshot shows of a tree in a slot. -/
def cleaned (s : Schema) (q : Option Slot) : Tree → Tree
  | leaf v => leaf v
  | array xs => array (cleanedItems s (q.bind Slot.element?) xs)
  | record es =>
    match q.bind (Slot.shape? s) with
    | some t => record (cleanedEntries s t es)
    | none => record es
/-- What it shows of elements. -/
def cleanedItems (s : Schema) (e : Option Slot) : List Tree → List Tree
  | [] => []
  | x :: xs => cleaned s e x :: cleanedItems s e xs
/-- What it shows of the fields of a record of the type. -/
def cleanedEntries (s : Schema) (t : TypeId) : Entries → Entries
  | [] => []
  | (key, x) :: rest =>
    if (s.type t).keeps key then
      (key, cleaned s ((s.type t).slot? key) x) :: cleanedEntries s t rest
    else cleanedEntries s t rest
end

variable {s : Schema} {q : Option Slot} {t : TypeId} {key : String} {es : Entries} {x : Tree}

theorem cleanedItems_eq (e : Option Slot) (xs : List Tree) :
    cleanedItems s e xs = xs.map (cleaned s e) := by
  induction xs with
  | nil => rfl
  | cons x xs ih => rw [cleanedItems, List.map_cons, ih]

@[simp] theorem isLeaf_cleaned : (cleaned s q x).isLeaf = x.isLeaf := by
  cases x with
  | leaf v => rfl
  | array xs => rfl
  | record es =>
    unfold cleaned
    split <;> rfl

@[simp] theorem isArray_cleaned : (cleaned s q x).isArray = x.isArray := by
  cases x with
  | leaf v => rfl
  | array xs => rfl
  | record es =>
    unfold cleaned
    split <;> rfl

theorem cleaned_of_isLeaf (h : x.isLeaf = true) : cleaned s q x = x := by
  cases x <;> first | rfl | cases h

@[simp] theorem isUndefined_cleaned : (cleaned s q x).isUndefined = x.isUndefined := by
  cases x with
  | leaf v => rfl
  | array xs => rfl
  | record es =>
    unfold cleaned
    split <;> rfl

/-! ### Records -/

/-- Some of the keys are kept, in their order. -/
theorem keys_cleanedEntries :
    (cleanedEntries s t es).keys = es.keys.filter (s.type t).keeps := by
  induction es with
  | nil => rfl
  | cons e es ih =>
    obtain ⟨key, x⟩ := e
    unfold Entries.keys at ih ⊢
    rw [cleanedEntries, List.map_cons]
    by_cases hk : (s.type t).keeps key = true
    · rw [if_pos hk, List.map_cons, ih, List.filter_cons_of_pos hk]
    · rw [if_neg hk, ih, List.filter_cons_of_neg hk]

theorem get_cleanedEntries (hk : (s.type t).keeps key = true) :
    (cleanedEntries s t es).get key = cleaned s ((s.type t).slot? key) (es.get key) := by
  induction es with
  | nil => rfl
  | cons e es ih =>
    obtain ⟨k, x⟩ := e
    rw [cleanedEntries]
    by_cases hkey : key = k
    · subst hkey
      rw [if_pos hk, Entries.get_cons, Entries.get_cons, if_pos rfl, if_pos rfl]
    · rw [Entries.get_cons, if_neg hkey]
      split
      · rw [Entries.get_cons, if_neg hkey, ih]
      · exact ih

theorem tidy_cleanedEntries (tidy : es.Tidy) : (cleanedEntries s t es).Tidy := by
  refine ⟨keys_cleanedEntries ▸ tidy.nodup.filter _, fun k hk => ?_⟩
  obtain ⟨there, kept⟩ := List.mem_filter.1 (keys_cleanedEntries ▸ hk)
  rw [get_cleanedEntries kept, isUndefined_cleaned]
  exact tidy.defined k there

/-- Fields that have the same keys and show the same under those that are kept look the same. -/
theorem cleanedEntries_congr {es' : Entries} (nodup : es.keys.Nodup)
    (keys : es'.keys.filter (s.type t).keeps = es.keys)
    (get : ∀ key ∈ es.keys, cleaned s ((s.type t).slot? key) (es'.get key) = es.get key) :
    cleanedEntries s t es' = es := by
  have keys' : (cleanedEntries s t es').keys = es.keys := keys_cleanedEntries.trans keys
  have shown : (cleanedEntries s t es').keys.Nodup := keys'.symm ▸ nodup
  rw [← Entries.map_get shown, keys']
  refine (List.map_congr_left fun key hkey => ?_).trans (Entries.map_get nodup)
  have kept : (s.type t).keeps key = true := by
    rw [← keys] at hkey
    exact (List.mem_filter.1 hkey).2
  rw [get_cleanedEntries kept, get key hkey]

/-! ### Twice -/

@[simp] theorem cleaned_none (x : Tree) : cleaned s none x = x := by
  induction x using Tree.induct with
  | leaf v => rfl
  | array xs ih =>
    rw [cleaned, Option.bind_none, cleanedItems_eq, List.map_congr_left ih, List.map_id']
  | record es ih => rfl

/-- A snapshot of what is shown shows the same. -/
theorem cleaned_cleaned (x : Tree) (q : Option Slot) :
    cleaned s q (cleaned s q x) = cleaned s q x := by
  induction x using Tree.induct generalizing q with
  | leaf v => rfl
  | array xs ih =>
    rw [cleaned, cleaned, cleanedItems_eq, cleanedItems_eq, List.map_map]
    exact congrArg array (List.map_congr_left fun x hx => ih x hx _)
  | record es ih =>
    unfold cleaned
    cases hq : q.bind (Slot.shape? s) with
    | none =>
      dsimp only
      rw [cleaned, hq]
    | some t =>
      dsimp only
      rw [cleaned, hq]
      refine congrArg record ?_
      clear hq
      induction es with
      | nil => rfl
      | cons e es ihs =>
        obtain ⟨key, x⟩ := e
        have rest := ihs fun e he => ih e (List.mem_cons_of_mem _ he)
        rw [cleanedEntries]
        split
        · rename_i hk
          rw [cleanedEntries, if_pos hk, ih (key, x) List.mem_cons_self, rest]
        · exact rest

end Tree

end Overlay
