import Overlay.Proofs.Heap.Growth
import Overlay.Snapshot

/-!
# Snapshots leave the heap alone

Taking a snapshot adds cells for the copies and changes none that was there.

* `Snapshot.take_extends` : so does taking the snapshot of a value.
-/

namespace Overlay.Snapshot

/-! ### Runs -/

theorem bind_run {α β : Type} (act : Action α) (next : α → Action β) (c : Context) (st : State) :
    (act >>= next) c st = next (act c st).1 c (act c st).2 := rfl

theorem read_run (c : Context) (st : State) : (read : Action Context) c st = (c, st) := rfl

theorem get_run (c : Context) (st : State) : (get : Action State) c st = (st, st) := rfl

theorem wrapper?_run (r : RecordId) (c : Context) (st : State) :
    wrapper? r c st = (st.heap.wrapper? c.roots r, st) := by
  unfold wrapper?
  rw [bind_run, get_run]
  dsimp only
  unfold Heap.wrapper? Heap.attachedIn?
  cases st.heap.attached? r <;> rfl

theorem dataOf_record (copy : Property → Value → Action Value) (t : TypeId) (r : RecordId)
    (c : Context) (st : State) :
    dataOf copy t (.record r) c st =
      if (c.schema.type t).isStructured then
        freshRecord (entriesOf copy (c.schema.type t) (st.heap.fields r).entries c st).1 c
          (entriesOf copy (c.schema.type t) (st.heap.fields r).entries c st).2
      else (.record r, st) := by
  unfold dataOf
  rw [bind_run, read_run]
  dsimp only
  cases (c.schema.type t).isStructured <;> rfl

theorem dataOf_other {copy : Property → Value → Action Value} {t : TypeId} {data : Value}
    {c : Context} {st : State} (hd : data.isRecord = false) :
    dataOf copy t data c st = (data, st) := by
  unfold dataOf
  rw [bind_run, read_run]
  dsimp only
  cases data <;> first | (cases (c.schema.type t).isStructured <;> rfl) | cases hd

/-! ### Cells -/

/-- The step changes no cell that is there. -/
def Extending {α : Type} (act : Action α) : Prop :=
  ∀ (c : Context) (s : State), s.heap.Extends (act c s).2.heap

namespace Extending

variable {α β : Type}

theorem pure (a : α) : Extending (Pure.pure a : Action α) := fun _ s => .refl s.heap

theorem bind {act : Action α} {next : α → Action β} (first : Extending act)
    (rest : ∀ a, Extending (next a)) : Extending (act >>= next) :=
  fun c s => (first c s).trans (rest _ c _)

theorem get : Extending (MonadState.get : Action State) := fun _ s => .refl s.heap

theorem read : Extending (MonadReader.read : Action Context) := fun _ s => .refl s.heap

end Extending

theorem wrapper?_extending (r : RecordId) : Extending (wrapper? r) := by
  refine .bind .get fun s => ?_
  dsimp only
  split
  · exact .pure _
  · exact .bind .read fun _ => .pure _

theorem freshArray_extending (vs : List Value) : Extending (freshArray vs) :=
  fun _ s => s.heap.extends_addArray vs

theorem freshRecord_extending (es : List (String × Value)) : Extending (freshRecord es) :=
  fun _ s => s.heap.extends_addRecord _

theorem noteKey_extending (key : String) : Extending (noteKey key) := fun _ s => .refl s.heap

theorem each_extending {copy : Value → Action Value} (h : ∀ v, Extending (copy v))
    (vs : List Value) : Extending (each copy vs) := by
  induction vs with
  | nil => exact .pure _
  | cons v vs ih => exact .bind (h v) fun _ => .bind ih fun _ => .pure _

theorem entriesOf_extending {copy : Property → Value → Action Value}
    (h : ∀ p v, Extending (copy p v)) (type : ModelType) (es : List (String × Value)) :
    Extending (entriesOf copy type es) := by
  induction es with
  | nil => exact .pure _
  | cons e es ih =>
    obtain ⟨key, v⟩ := e
    unfold entriesOf
    split
    · exact ih
    · split
      · split
        · exact .bind (h _ v) fun _ => .bind ih fun _ => .pure _
        · exact ih
      · split
        · exact .bind ih fun _ => .pure _
        · exact .bind (noteKey_extending key) fun _ => ih

theorem dataOf_extending {copy : Property → Value → Action Value}
    (h : ∀ p v, Extending (copy p v)) (t : TypeId) (data : Value) :
    Extending (dataOf copy t data) := by
  refine .bind .read fun c => ?_
  dsimp only
  split
  · exact .bind .get fun s => .bind (entriesOf_extending h _ _) fun _ => freshRecord_extending _
  · exact .pure _

theorem modelOf_extending {copy : Property → Value → Action Value}
    (h : ∀ p v, Extending (copy p v)) (m : ModelId) : Extending (modelOf copy m) :=
  .bind .get fun _ => dataOf_extending h _ _

theorem within_extending (depth : Nat) (p : Option Property) (v : Value) :
    Extending (within depth p v) := by
  induction depth generalizing p v with
  | zero => exact .pure _
  | succ depth ih =>
    unfold within
    split
    · exact .bind .get fun s => .bind (each_extending (ih _) _) fun _ => freshArray_extending _
    · exact modelOf_extending (fun p => ih (some p)) _
    · refine .bind (wrapper?_extending _) fun m => ?_
      split
      · exact modelOf_extending (fun p => ih (some p)) _
      · split
        · exact dataOf_extending (fun p => ih (some p)) _ _
        · exact .pure _
    · exact .pure _

/-- A snapshot changes no cell that was there. -/
theorem take_extends (s : Schema) (roots : List Value) (h : Heap)
    (ds : Option (List Diagnostic)) (v : Value) : h.Extends (take s roots h ds v).2.heap :=
  within_extending _ _ _ ⟨s, roots⟩ ⟨h, ds⟩

end Overlay.Snapshot
