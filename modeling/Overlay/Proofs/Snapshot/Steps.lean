import Overlay.Proofs.Heap.Guards
import Overlay.Proofs.Snapshot.Extension

/-!
# What snapshots consist of

A snapshot is put together from what its value leads to and from fresh cells, so it is of the kind
of values that it is taken of, if that includes all their parts.

* `Snapshot.take_copies` : taking a snapshot keeps to the kind of values that it is given.
-/

namespace Overlay.Snapshot

/-- Whatever kind of values the action is given, it takes steps of the heap only that write values
of the kind, and gives such values. -/
def Copies {α : Type} (s : Schema) (vs : List Value) (act : Action α) (out : α → List Value) :
    Prop :=
  ∀ (G : Heap.Guard s) (c : Context) (st : State), G.Sound vs c.roots st.heap →
    G.Keeps st.heap (act c st).2.heap ∧ ∀ v ∈ out (act c st).1, G.Has (act c st).2.heap v

namespace Copies

variable {α β : Type} {s : Schema} {vs ws : List Value} {act : Action α} {out : α → List Value}

theorem mono (h : Copies s ws act out) (sub : ∀ v ∈ ws, v ∈ vs) : Copies s vs act out :=
  fun G c st sound => h G c st (sound.mono sub)

theorem pure {a : α} (h : ∀ v ∈ out a, v ∈ vs) : Copies s vs (Pure.pure a : Action α) out :=
  fun _ _ _ sound => ⟨.refl sound.ok, fun v hv => sound.there v (h v hv)⟩

theorem bind {next : α → Action β} {out' : β → List Value} (first : Copies s vs act out)
    (rest : ∀ a, Copies s (out a ++ vs) (next a) out') : Copies s vs (act >>= next) out' := by
  intro G c st sound
  obtain ⟨keeps, there⟩ := first G c st sound
  obtain ⟨keeps', there'⟩ := rest (act c st).1 G c (act c st).2 ((sound.keeps keeps).append there)
  exact ⟨keeps.trans keeps', there'⟩

/-- After a look at the heap, what was seen there may be used. -/
theorem get {next : State → Action α}
    (rest : ∀ st : State, ∃ ws,
      (∀ P : Value → Prop, st.heap.Sealed P → (∀ v ∈ vs, P v) → ∀ w ∈ ws, P w) ∧
        Copies s (ws ++ vs) (next st) out) :
    Copies s vs (MonadState.get >>= next) out := by
  intro G c st sound
  obtain ⟨ws, hws, h⟩ := rest st
  exact h G c st (sound.append (hws _ (G.inside sound.ok) sound.there))

theorem read {next : Context → Action α} (rest : ∀ c, Copies s vs (next c) out) :
    Copies s vs (MonadReader.read >>= next) out :=
  fun G c st sound => rest c G c st sound

end Copies

variable {s : Schema}

theorem wrapper?_copies (r : RecordId) :
    Copies s [.record r] (wrapper? r) fun m => (m.map Value.model).toList := by
  intro G c st sound
  rw [wrapper?_run]
  refine ⟨.refl sound.ok, fun v hv => ?_⟩
  obtain ⟨m, hm, rfl⟩ := Option.map_eq_some_iff.1 (Option.mem_toList.1 hv)
  exact G.wrapper sound.ok (sound.there _ List.mem_cons_self) sound.uses hm

theorem freshArray_copies (vs : List Value) : Copies s vs (freshArray vs) ([·]) := by
  intro G c st sound
  have keeps : G.Keeps st.heap (st.heap.addArray vs).2 := .move sound.ok (.addArray sound.there)
  refine ⟨keeps, fun v hv => ?_⟩
  cases List.mem_singleton.1 hv
  exact G.fresh sound.ok keeps.grows (Nat.lt_irrefl _)
    (Nat.lt_of_lt_of_eq (Nat.lt_succ_self _) (Array.size_push _).symm)

theorem freshRecord_copies (es : List (String × Value)) :
    Copies s (es.map Prod.snd) (freshRecord es) ([·]) := by
  intro G c st sound
  have keeps : G.Keeps st.heap (st.heap.recordOf es).2 :=
    .move sound.ok (.addRecord fun v hv => sound.there v (Fields.mem_values_ofList hv))
  refine ⟨keeps, fun v hv => ?_⟩
  cases List.mem_singleton.1 hv
  exact G.fresh sound.ok keeps.grows (Nat.lt_irrefl _)
    (Nat.lt_of_lt_of_eq (Nat.lt_succ_self _) (Array.size_push _).symm)

theorem noteKey_copies (key : String) : Copies s [] (noteKey key) fun _ => [] :=
  fun _ _ _ sound => ⟨.refl sound.ok, fun _ h => absurd h List.not_mem_nil⟩

theorem each_copies {copy : Value → Action Value} (h : ∀ v, Copies s [v] (copy v) ([·]))
    (vs : List Value) : Copies s vs (each copy vs) id := by
  induction vs with
  | nil => exact .pure fun _ h => h
  | cons v vs ih =>
    refine .bind ((h v).mono (by simp)) fun w => .bind (ih.mono (by simp +contextual)) fun ws => ?_
    exact .pure (by simp +contextual)

theorem entriesOf_copies {copy : Property → Value → Action Value}
    (h : ∀ p v, Copies s [v] (copy p v) ([·])) (type : ModelType) (es : List (String × Value)) :
    Copies s (es.map Prod.snd) (entriesOf copy type es) fun es => es.map Prod.snd := by
  induction es with
  | nil => exact .pure fun _ h => h
  | cons e es ih =>
    obtain ⟨key, v⟩ := e
    have skip : Copies s (v :: es.map Prod.snd) (entriesOf copy type es) fun es =>
        es.map Prod.snd := ih.mono fun _ h => List.mem_cons_of_mem _ h
    unfold entriesOf
    split
    · exact skip
    · split
      · split
        · refine .bind ((h _ v).mono (by simp)) fun w => ?_
          exact .bind (skip.mono (by simp +contextual)) fun es' => .pure (by simp +contextual)
        · exact skip
      · split
        · exact .bind skip fun es' => .pure (by simp +contextual)
        · exact .bind ((noteKey_copies key).mono (by simp)) fun _ => skip

theorem dataOf_copies {copy : Property → Value → Action Value}
    (h : ∀ p v, Copies s [v] (copy p v) ([·])) (t : TypeId) (data : Value) :
    Copies s [data] (dataOf copy t data) ([·]) := by
  refine .read fun c => ?_
  dsimp only
  split
  · rename_i r _
    refine .get fun st => ⟨(st.heap.fields r).values, fun P seals there w hw => ?_, ?_⟩
    · exact seals.child (there _ List.mem_cons_self) hw
    · refine .bind ((entriesOf_copies h _ _).mono fun _ h => List.mem_append_left _ h) fun es => ?_
      exact (freshRecord_copies es).mono fun _ h => List.mem_append_left _ h
  · exact .pure fun _ h => h

theorem modelOf_copies {copy : Property → Value → Action Value}
    (h : ∀ p v, Copies s [v] (copy p v) ([·])) (m : ModelId) :
    Copies s [.model m] (modelOf copy m) ([·]) := by
  refine .get fun st => ⟨[st.heap.data m], fun P seals there w hw => ?_, ?_⟩
  · exact seals.child (there _ List.mem_cons_self) hw
  · exact (dataOf_copies h _ _).mono fun _ h => List.mem_append_left _ h

theorem within_copies (depth : Nat) (p : Option Property) (v : Value) :
    Copies s [v] (within depth p v) ([·]) := by
  induction depth generalizing p v with
  | zero => exact .pure fun _ h => h
  | succ depth ih =>
    unfold within
    split
    · rename_i a
      refine .get fun st => ⟨st.heap.items a, fun P seals there w hw => ?_, ?_⟩
      · exact seals.child (there _ List.mem_cons_self) hw
      · refine .bind ((each_copies (ih _) _).mono fun _ h => List.mem_append_left _ h) fun vs => ?_
        exact (freshArray_copies vs).mono fun _ h => List.mem_append_left _ h
    · exact modelOf_copies (fun p => ih (some p)) _
    · refine .bind (wrapper?_copies _) fun m => ?_
      split
      · exact (modelOf_copies (fun p => ih (some p)) _).mono (by simp)
      · split
        · exact (dataOf_copies (fun p => ih (some p)) _ _).mono (by simp)
        · exact .pure (by simp)
    · exact .pure fun _ h => h

/-- Taking a snapshot keeps to the kind of values that it is given. -/
theorem take_copies (G : Heap.Guard s) (schema : Schema) {roots : List Value} {h : Heap}
    (ds : Option (List Diagnostic)) {v : Value} (sound : G.Sound [v] roots h) :
    G.Keeps h (take schema roots h ds v).2.heap ∧
      G.Has (take schema roots h ds v).2.heap (take schema roots h ds v).1 := by
  obtain ⟨keeps, there⟩ := within_copies (h.size + 1) none v G ⟨schema, roots⟩ ⟨h, ds⟩ sound
  exact ⟨keeps, there _ List.mem_cons_self⟩

end Overlay.Snapshot
