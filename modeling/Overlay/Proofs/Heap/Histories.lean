import Mathlib.Data.Nat.Find
import Overlay.Proofs.Heap.Edits

/-!
# Records and their histories

A record is written to in three ways: a value is stored under a key, a key is removed, and entries
are collected into a fresh record.  `History` is the list of all writes to one record, oldest first,
and says by itself what has to be found there: the value that was stored last under each key, unless
the key was removed later, in the order in which the keys came to stay.

* `History.held_concat`, `History.born_concat` : what one more write does to the places of a
  history;
* `Fields.Reflects.write` : fields that reflect their history go on to do so after one more write;
* `Fields.reflects_after` : so all fields reflect the writes that made them;
* `Heap.records_reflect` : **a record is the ordered map of its history**, however the writes to it
  and to other records follow one another.
-/

namespace Overlay

/-- A write to the fields of a record. -/
inductive FieldWrite
  /-- A value is stored under a key. -/
  | insert (key : String) (value : Value)
  /-- A key is removed. -/
  | remove (key : String)
  deriving DecidableEq

namespace FieldWrite

/-- The key that is written. -/
def key : FieldWrite → String
  | insert key _ => key
  | remove key => key

/-- The key is removed: in so many words, or by storing the undefined value under it. -/
def Removes (w : FieldWrite) (key : String) : Prop := w = remove key ∨ w = insert key .undefined

/-- This value is stored under the key. -/
def Stores (w : FieldWrite) (key : String) (v : Value) : Prop := w = insert key v ∧ v ≠ .undefined

/-- The fields after the write. -/
def run (f : Fields) : FieldWrite → Fields
  | insert key value => f.insert key value
  | remove key => f.remove key

variable {w : FieldWrite} {k : String} {v : Value} {f : Fields}

theorem Stores.key_eq (stores : w.Stores k v) : w.key = k := by
  rw [stores.1]
  rfl

theorem Stores.not_removes (stores : w.Stores k v) : ¬ w.Removes k := by
  rintro (e | e)
  · cases stores.1.symm.trans e
  · cases stores.1.symm.trans e
    exact stores.2 rfl

/-- A write leaves a key alone, removes it, or stores something under it. -/
theorem cases_key (w : FieldWrite) (k : String) :
    w.key ≠ k ∨ w.Removes k ∨ ∃ v, w.Stores k v := by
  by_cases hk : w.key = k
  · subst hk
    cases w with
    | remove key => exact Or.inr (Or.inl (Or.inl rfl))
    | insert key v =>
      by_cases hv : v = .undefined
      · exact Or.inr (Or.inl (Or.inr (hv ▸ rfl)))
      · exact Or.inr (Or.inr ⟨v, rfl, hv⟩)
  · exact Or.inl hk

theorem Removes.key_eq (removes : w.Removes k) : w.key = k := by
  rcases removes with rfl | rfl <;> rfl

/-! ### The fields after one write -/

theorem run_of_removes (removes : w.Removes k) : w.run f = f.remove k := by
  rcases removes with rfl | rfl
  · rfl
  · exact Fields.insert_undefined

theorem run_of_stores (stores : w.Stores k v) : w.run f = f.insert k v := by
  rw [stores.1]
  rfl

theorem get_run_of_ne (other : w.key ≠ k) : (w.run f).get k = f.get k := by
  cases w with
  | insert key v => exact Fields.get_insert.trans (if_neg (Ne.symm other))
  | remove key => exact Fields.get_remove.trans (if_neg (Ne.symm other))

end FieldWrite

/-- The writes to a record, oldest first. -/
abbrev History := List FieldWrite

namespace History

/-- The writes that collect entries. -/
def ofEntries (es : List (String × Value)) : History := es.map fun e => .insert e.1 e.2

variable (ws : History)

/-- The fields after all writes. -/
def after (f : Fields) : Fields := ws.foldl FieldWrite.run f

/-- All writes after this place are such. -/
def Later (i : Nat) (P : FieldWrite → Prop) : Prop := ∀ j w, i < j → ws[j]? = some w → P w

/-- The value was stored under the key, and the key was not written again. -/
def LastStored (key : String) (v : Value) : Prop :=
  ∃ i w, ws[i]? = some w ∧ FieldWrite.Stores w key v ∧ ws.Later i fun w => w.key ≠ key

/-- Something was stored under the key at this place, and the key was not removed later. -/
def HeldSince (key : String) (i : Nat) : Prop :=
  (∃ w v, ws[i]? = some w ∧ FieldWrite.Stores w key v) ∧ ws.Later i fun w => ¬ w.Removes key

/-- The place where something was first stored under the key since it was last removed. -/
def BornAt (key : String) (i : Nat) : Prop := ws.HeldSince key i ∧ ∀ j < i, ¬ ws.HeldSince key j

end History

/-- The fields are the ordered map that their history leaves. -/
structure Fields.Reflects (f : Fields) (ws : History) : Prop where
  /-- A key occurs once. -/
  distinct : f.keys.Nodup
  /-- The undefined value is never stored. -/
  defined : ∀ e ∈ f.entries, e.2 ≠ .undefined
  /-- Under a key is what was stored there last, unless the key was removed later. -/
  last : ∀ key v, ws.LastStored key v → f.get key = v
  /-- Otherwise there is nothing. -/
  nothing : ∀ key, (∀ v, ¬ ws.LastStored key v) → f.get key = .undefined
  /-- The keys are those that came to stay. -/
  held : ∀ key, key ∈ f.keys ↔ ∃ i, ws.BornAt key i
  /-- They are in the order in which they did. -/
  order : f.keys.Pairwise fun key key' => ∀ i j, ws.BornAt key i → ws.BornAt key' j → i < j
  /-- The keys are as many as the fields. -/
  size : f.size = f.keys.length
  /-- A key is there exactly if there is something under it. -/
  contains : ∀ key, f.contains key = true ↔ f.get key ≠ .undefined
  /-- The entries are the keys with what is under them. -/
  entries : f.entries = f.keys.map fun key => (key, f.get key)

namespace History

variable {ws : History} {w : FieldWrite} {key : String} {v : Value} {i : Nat}

/-! ### One more write -/

theorem getElem?_concat_eq_some {w' : FieldWrite} :
    (ws ++ [w])[i]? = some w' ↔ ws[i]? = some w' ∨ i = ws.length ∧ w = w' := by
  rw [List.getElem?_append]
  split
  · rename_i lt
    exact ⟨Or.inl, fun h => h.resolve_right fun e => absurd e.1 (Nat.ne_of_lt lt)⟩
  · rename_i ge
    rw [List.getElem?_eq_none (Nat.le_of_not_lt ge), List.getElem?_singleton]
    constructor
    · intro h
      split at h
      · exact Or.inr ⟨by omega, Option.some.inj h⟩
      · cases h
    · rintro (h | ⟨rfl, rfl⟩)
      · cases h
      · rw [Nat.sub_self, if_pos rfl]

theorem later_concat {P : FieldWrite → Prop} :
    Later (ws ++ [w]) i P ↔ ws.Later i P ∧ (i < ws.length → P w) := by
  simp only [Later, getElem?_concat_eq_some]
  constructor
  · exact fun h => ⟨fun j w' hj hw => h j w' hj (Or.inl hw), fun hi => h _ w hi (Or.inr ⟨rfl, rfl⟩)⟩
  · rintro ⟨old, new⟩ j w' hj (hw | ⟨rfl, rfl⟩)
    · exact old j w' hj hw
    · exact new hj

theorem later_length {P : FieldWrite → Prop} : ws.Later ws.length P := fun j w hj hw => by
  rw [List.getElem?_eq_none (Nat.le_of_lt hj)] at hw
  cases hw

theorem lastStored_concat :
    LastStored (ws ++ [w]) key v ↔ w.Stores key v ∨ w.key ≠ key ∧ ws.LastStored key v := by
  simp only [LastStored, later_concat, getElem?_concat_eq_some]
  constructor
  · rintro ⟨i, w', old | ⟨rfl, rfl⟩, stores, later, new⟩
    · exact Or.inr ⟨new (List.getElem?_eq_some_iff.1 old).1, i, w', old, stores, later⟩
    · exact Or.inl stores
  · rintro (stores | ⟨other, i, w', old, stores, later⟩)
    · exact ⟨_, w, Or.inr ⟨rfl, rfl⟩, stores, later_length, fun h => absurd h (Nat.lt_irrefl _)⟩
    · exact ⟨i, w', Or.inl old, stores, later, fun _ => other⟩

theorem held_concat : HeldSince (ws ++ [w]) key i ↔
    ws.HeldSince key i ∧ ¬ w.Removes key ∨ i = ws.length ∧ ∃ v, w.Stores key v := by
  simp only [HeldSince, later_concat, getElem?_concat_eq_some]
  constructor
  · rintro ⟨⟨w', v, old | ⟨rfl, rfl⟩, stores⟩, later, new⟩
    · exact Or.inl ⟨⟨⟨w', v, old, stores⟩, later⟩, new (List.getElem?_eq_some_iff.1 old).1⟩
    · exact Or.inr ⟨rfl, v, stores⟩
  · rintro (⟨⟨⟨w', v, old, stores⟩, later⟩, new⟩ | ⟨rfl, v, stores⟩)
    · exact ⟨⟨w', v, Or.inl old, stores⟩, later, fun _ => new⟩
    · exact ⟨⟨w, v, Or.inr ⟨rfl, rfl⟩, stores⟩, later_length, fun h => absurd h (Nat.lt_irrefl _)⟩

theorem HeldSince.lt_length (held : ws.HeldSince key i) : i < ws.length := by
  obtain ⟨⟨w, v, hw, -⟩, -⟩ := held
  exact (List.getElem?_eq_some_iff.1 hw).1

theorem exists_born : (∃ i, ws.BornAt key i) ↔ ∃ i, ws.HeldSince key i := by
  classical
  exact ⟨fun ⟨i, born⟩ => ⟨i, born.1⟩,
    fun held => ⟨Nat.find held, Nat.find_spec held, fun _ hj => Nat.find_min held hj⟩⟩

theorem not_born_of_removes (removes : w.Removes key) : ¬ BornAt (ws ++ [w]) key i := by
  rintro ⟨held, -⟩
  rcases held_concat.1 held with ⟨-, kept⟩ | ⟨-, v, stores⟩
  · exact kept removes
  · exact stores.not_removes removes

/-- A key that is there, or that is left alone, was born where it was before. -/
theorem born_concat (kept : ¬ w.Removes key) (old : (∃ j, ws.HeldSince key j) ∨ w.key ≠ key) :
    BornAt (ws ++ [w]) key i ↔ ws.BornAt key i := by
  have earlier : ∀ {j}, HeldSince (ws ++ [w]) key j →
      ws.HeldSince key j ∨ j = ws.length ∧ ∃ k < j, ws.HeldSince key k := by
    intro j held
    rcases held_concat.1 held with ⟨held, -⟩ | ⟨rfl, v, stores⟩
    · exact Or.inl held
    · obtain ⟨k, held⟩ := old.resolve_right fun other => other stores.key_eq
      exact Or.inr ⟨rfl, k, held.lt_length, held⟩
  constructor
  · rintro ⟨held, first⟩
    rcases earlier held with held | ⟨-, k, lt, held⟩
    · exact ⟨held, fun j hj held => first j hj (held_concat.2 (Or.inl ⟨held, kept⟩))⟩
    · exact absurd (held_concat.2 (Or.inl ⟨held, kept⟩)) (first k lt)
  · rintro ⟨held, first⟩
    refine ⟨held_concat.2 (Or.inl ⟨held, kept⟩), fun j hj held' => ?_⟩
    rcases earlier held' with held' | ⟨rfl, -⟩
    · exact first j hj held'
    · exact absurd hj (Nat.lt_asymm held.lt_length)

theorem born_of_concat (there : ∃ j, ws.HeldSince key j) (born : BornAt (ws ++ [w]) key i) :
    ws.BornAt key i := by
  by_cases removes : w.Removes key
  · exact absurd born (not_born_of_removes removes)
  · exact (born_concat removes (Or.inl there)).1 born

theorem born_concat_of_new (stores : w.Stores key v) (new : ¬ ∃ j, ws.HeldSince key j) :
    BornAt (ws ++ [w]) key i ↔ i = ws.length := by
  have only : ∀ j, HeldSince (ws ++ [w]) key j ↔ j = ws.length := fun j => by
    rw [held_concat]
    exact ⟨fun h => h.elim (fun held => absurd ⟨j, held.1⟩ new) fun h => h.1,
      fun e => Or.inr ⟨e, v, stores⟩⟩
  unfold BornAt
  rw [only]
  refine ⟨fun h => h.1, fun e => ⟨e, fun j hj held => ?_⟩⟩
  exact absurd ((only j).1 held) (Nat.ne_of_lt (e ▸ hj))

end History

namespace Fields

variable {f : Fields} {ws : History} {w : FieldWrite} {key : String} {v : Value}

/-! ### Fields -/

theorem entries_eq_map (f : Fields) : f.entries = f.keys.map fun key => (key, f.get key) := by
  have same : ∀ e ∈ f.entries, (e.1, f.get e.1) = e := fun e he => Prod.ext rfl (get_of_mem he)
  rw [keys, List.map_map]
  exact ((List.map_congr_left same).trans (List.map_id _)).symm

theorem contains_iff : f.contains key = true ↔ f.get key ≠ .undefined := by
  rw [contains, List.contains_iff_mem, mem_keys_iff]

theorem reflects_empty : empty.Reflects [] where
  distinct := empty.nodup
  defined := empty.stored
  last _ _ := fun ⟨_, _, hw, _⟩ => by simp at hw
  nothing _ _ := rfl
  held key := by
    rw [History.exists_born]
    exact ⟨fun h => absurd h List.not_mem_nil, fun ⟨_, ⟨_, _, hw, _⟩, _⟩ => by simp at hw⟩
  order := List.Pairwise.nil
  size := rfl
  contains _ := contains_iff
  entries := rfl

namespace Reflects

variable (r : f.Reflects ws)

include r

theorem get_run (stored : History.LastStored (ws ++ [w]) key v) : (w.run f).get key = v := by
  rcases History.lastStored_concat.1 stored with stores | ⟨other, stored⟩
  · rw [FieldWrite.run_of_stores stores, get_insert, if_pos rfl]
  · rw [FieldWrite.get_run_of_ne other, r.last key v stored]

theorem get_run_of_none (none : ∀ v, ¬ History.LastStored (ws ++ [w]) key v) :
    (w.run f).get key = .undefined := by
  rcases w.cases_key key with other | removes | ⟨v, stores⟩
  · rw [FieldWrite.get_run_of_ne other]
    exact r.nothing key fun v stored => none v (History.lastStored_concat.2 (Or.inr ⟨other, stored⟩))
  · rw [FieldWrite.run_of_removes removes, get_remove, if_pos rfl]
  · exact absurd (History.lastStored_concat.2 (Or.inl stores)) (none v)

theorem held_since : key ∈ f.keys ↔ ∃ i, ws.HeldSince key i :=
  (r.held key).trans History.exists_born

/-- The keys after one more write are those that came to stay. -/
theorem held_run : key ∈ (w.run f).keys ↔ ∃ i, History.HeldSince (ws ++ [w]) key i := by
  simp only [History.held_concat]
  rcases w.cases_key key with other | removes | ⟨v, stores⟩
  · rw [mem_keys_iff, FieldWrite.get_run_of_ne other, ← mem_keys_iff, r.held_since]
    refine exists_congr fun i => ⟨fun held => Or.inl ⟨held, fun e => other e.key_eq⟩, ?_⟩
    exact fun h => h.elim (fun held => held.1) fun ⟨_, _, stores⟩ => absurd stores.key_eq other
  · rw [mem_keys_iff, FieldWrite.run_of_removes removes, get_remove, if_pos rfl]
    refine ⟨fun h => absurd rfl h, ?_⟩
    rintro ⟨i, ⟨-, kept⟩ | ⟨-, v, stores⟩⟩
    · exact absurd removes kept
    · exact absurd removes stores.not_removes
  · rw [mem_keys_iff, FieldWrite.run_of_stores stores, get_insert, if_pos rfl]
    exact ⟨fun _ => ⟨_, Or.inr ⟨rfl, v, stores⟩⟩, fun _ => stores.2⟩

theorem order_old : f.keys.Pairwise fun key key' => ∀ i j, History.BornAt (ws ++ [w]) key i →
    History.BornAt (ws ++ [w]) key' j → i < j :=
  r.order.imp_of_mem fun hk hk' before i j born born' =>
    before i j (History.born_of_concat (r.held_since.1 hk) born)
      (History.born_of_concat (r.held_since.1 hk') born')

/-- The keys after one more write are in order: a new one comes last. -/
theorem order_run : (w.run f).keys.Pairwise fun key key' => ∀ i j,
    History.BornAt (ws ++ [w]) key i → History.BornAt (ws ++ [w]) key' j → i < j := by
  rcases w.cases_key w.key with other | removes | ⟨v, stores⟩
  · exact absurd rfl other
  · rw [FieldWrite.run_of_removes removes, keys_remove]
    exact r.order_old.filter _
  · rw [FieldWrite.run_of_stores stores, keys_insert stores.2]
    split
    · exact r.order_old
    · rename_i new
      refine List.pairwise_append.2 ⟨r.order_old, List.pairwise_singleton .., ?_⟩
      intro key hkey key' hkey' i j born born'
      obtain rfl := List.mem_singleton.1 hkey'
      have old := History.born_of_concat (r.held_since.1 hkey) born
      rw [(History.born_concat_of_new stores (mt r.held_since.2 new)).1 born']
      exact old.1.lt_length

/-- **Fields that reflect their history go on to do so.** -/
theorem write (w : FieldWrite) : (w.run f).Reflects (ws ++ [w]) where
  distinct := (w.run f).nodup
  defined := (w.run f).stored
  last _ _ := r.get_run
  nothing _ := r.get_run_of_none
  held _ := r.held_run.trans History.exists_born.symm
  order := r.order_run
  size := (List.length_map ..).symm
  contains _ := contains_iff
  entries := entries_eq_map _

/-- So they do after any number of writes. -/
theorem after (more : History) : (more.after f).Reflects (ws ++ more) := by
  induction more generalizing f ws with
  | nil => rwa [List.append_nil]
  | cons w more ih =>
    rw [← List.singleton_append, ← List.append_assoc]
    exact ih (r.write w)

end Reflects

/-- Fields reflect the writes that made them. -/
theorem reflects_after (ws : History) : (ws.after empty).Reflects ws := reflects_empty.after ws

/-- A key that is stored again after it was removed comes last. -/
example : (History.after [.insert "a" .null, .insert "b" .null, .remove "a",
    .insert "b" (.bool true), .insert "a" .null] empty).entries =
      [("b", .bool true), ("a", .null)] := by decide

theorem after_ofEntries (es : List (String × Value)) :
    (History.ofEntries es).after empty = ofList es := by
  rw [History.after, History.ofEntries, List.foldl_map]
  rfl

/-- Fields reflect their own entries, as if these had been collected. -/
theorem reflects_entries (f : Fields) : f.Reflects (.ofEntries f.entries) := by
  have own : ofList f.entries = f := by
    have same := entries_ofList f.nodup f.stored
    obtain ⟨es, nodup, stored⟩ := f
    exact (Fields.mk.injEq ..).mpr same
  have reflects := reflects_after (.ofEntries f.entries)
  rwa [after_ofEntries, own] at reflects

end Fields

/-! ### Records -/

/-- A step of a program that writes to records. -/
inductive RecordStep
  /-- A value is stored under a key of a record. -/
  | insert (r : RecordId) (key : String) (value : Value)
  /-- A key of a record is removed. -/
  | remove (r : RecordId) (key : String)
  /-- Entries are collected into a fresh record. -/
  | collect (entries : List (String × Value))

namespace RecordStep

/-- The heap after the step. -/
def run (h : Heap) : RecordStep → Heap
  | insert r key value => h.insert r key value
  | remove r key => h.remove r key
  | collect entries => (h.recordOf entries).2

/-- The writes to one record that the step makes. -/
def writes (h : Heap) (r : RecordId) : RecordStep → History
  | insert r' key value => if r = r' ∧ r'.index < h.records.size then [.insert key value] else []
  | remove r' key => if r = r' ∧ r'.index < h.records.size then [.remove key] else []
  | collect entries => if r.index = h.records.size then .ofEntries entries else []

end RecordStep

namespace Heap

variable {h : Heap} {r : RecordId}

/-- The heap after some steps. -/
def afterSteps (h : Heap) (steps : List RecordStep) : Heap := steps.foldl RecordStep.run h

/-- The writes to one record that some steps make. -/
def writes (r : RecordId) : Heap → List RecordStep → History
  | _, [] => []
  | h, step :: steps => step.writes h r ++ writes r (step.run h) steps

theorem fields_step (step : RecordStep) :
    (step.run h).fields r = (step.writes h r).after (h.fields r) := by
  cases step with
  | insert r' key v =>
    rw [RecordStep.run, fields_insert, RecordStep.writes]
    split <;> rfl
  | remove r' key =>
    rw [RecordStep.run, remove_eq_insert, fields_insert, RecordStep.writes, Fields.insert_undefined]
    split <;> rfl
  | collect es =>
    rw [RecordStep.run, recordOf, fields_addRecord, RecordStep.writes]
    split
    · rename_i new
      have none : h.fields r = .empty := by
        rw [fields, Array.getElem?_eq_none (Nat.le_of_eq new.symm)]
      rw [none, Fields.after_ofEntries]
    · rfl

theorem fields_afterSteps (steps : List RecordStep) :
    (h.afterSteps steps).fields r = (writes r h steps).after (h.fields r) := by
  induction steps generalizing h with
  | nil => rfl
  | cons step steps ih =>
    rw [afterSteps, List.foldl_cons, writes, History.after, List.foldl_append]
    exact ih.trans (congrArg _ (fields_step step))

/-- **A record is the ordered map of its history.**  Whatever steps are taken, to whatever records,
each record reflects what was in it at first, followed by what the steps wrote to it: its keys are
different and in the order in which each came to stay, under each is the value stored last, and all
that can be asked of it tells of the same map. -/
theorem records_reflect (h : Heap) (steps : List RecordStep) (r : RecordId) :
    ((h.afterSteps steps).fields r).Reflects
      (.ofEntries (h.fields r).entries ++ writes r h steps) := by
  rw [fields_afterSteps]
  exact (Fields.reflects_entries _).after _

end Heap

end Overlay
