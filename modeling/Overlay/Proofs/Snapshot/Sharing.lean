import Overlay.Proofs.Interchange.Copies

/-!
# What a snapshot shares with what it is taken of

Most of a snapshot is fresh: arrays are copied, and so are the records that are known by a type with
properties.  What is handed on as it is are the records that no such type describes, and what stands
under keys that a type tolerates without declaring them.  Whatever leads there from the snapshot
leads there from the value, too.

* `Snapshot.HandedOn` : what is handed on;
* `Snapshot.within_shares` : nothing else is shared;
* `Snapshot.take_shares` : so it is for the snapshot of a value that does not contain itself.
-/

namespace Overlay.Snapshot

open Heap Interchange

/-! ### What is handed on -/

section HandedOn

variable (s : Schema) (h : Heap) (roots : List Value)

/-- The snapshot of the first value, found by this property if by any, has the second one in it just
as it is. -/
inductive HandedOn : Option Property → Value → Value → Prop
  /-- A record that is known by no type. -/
  | unknown {p : Option Property} {r : RecordId} (none : known? h roots p (.record r) = none) :
      HandedOn p (.record r) (.record r)
  /-- A datum that is no record or known by a type without properties. -/
  | datum {p : Option Property} {v data : Value} {t : TypeId}
      (known : known? h roots p v = some (t, data))
      (closed : (s.type t).isStructured = true → data.isRecord = false) : HandedOn p v data
  /-- What stands under a key of a record that its type does not declare but allows. -/
  | additional {p : Option Property} {v w : Value} {t : TypeId} {r : RecordId} {key : String}
      (known : known? h roots p v = some (t, .record r))
      (structured : (s.type t).isStructured = true) (mem : (key, w) ∈ (h.fields r).entries)
      (data : isReserved key = false) (undeclared : (s.type t).property? key = none)
      (allowed : (s.type t).allowsAdditional = true) : HandedOn p v w
  /-- What is handed on of an element of an array. -/
  | element {p : Option Property} {a : ArrayId} {v u : Value} (mem : v ∈ h.items a)
      (inside : HandedOn (p.bind (·.elementProperty?)) v u) : HandedOn p (.array a) u
  /-- What is handed on of a persisted field of a record. -/
  | field {p : Option Property} {v w u : Value} {t : TypeId} {r : RecordId} {key : String}
      {q : Property} (known : known? h roots p v = some (t, .record r))
      (structured : (s.type t).isStructured = true) (mem : (key, w) ∈ (h.fields r).entries)
      (data : isReserved key = false) (declared : (s.type t).property? key = some q)
      (persisted : q.isPersisted = true) (inside : HandedOn (some q) w u) : HandedOn p v u

/-- The snapshot of the value leads to the cell through something that is handed on. -/
def Passes (p : Option Property) (v x : Value) : Prop :=
  ∃ u, HandedOn s h roots p v u ∧ h.Reachable [u] x

/-- So does the snapshot of a record of the type through what stands under the key. -/
def PassesUnder (type : ModelType) (key : String) (v x : Value) : Prop :=
  isReserved key = false ∧
    ((∃ q, type.property? key = some q ∧ q.isPersisted = true ∧ Passes s h roots (some q) v x) ∨
      (type.property? key = none ∧ type.allowsAdditional = true ∧ h.Reachable [v] x))

end HandedOn

section Passes

variable {s : Schema} {h : Heap} {roots : List Value} {p : Option Property} {v x data : Value}
  {t : TypeId} {r : RecordId} {a : ArrayId}

theorem passes_of_unknown (none : known? h roots p (.record r) = none) :
    Passes s h roots p (.record r) x ↔ h.Reachable [.record r] x := by
  refine ⟨fun ⟨u, handed, reach⟩ => ?_, fun reach => ⟨_, .unknown none, reach⟩⟩
  cases handed with
  | unknown => exact reach
  | datum known => cases none.symm.trans known
  | additional known => cases none.symm.trans known
  | field known => cases none.symm.trans known

theorem passes_of_datum (known : known? h roots p v = some (t, data))
    (closed : (s.type t).isStructured = true → data.isRecord = false) :
    Passes s h roots p v x ↔ h.Reachable [data] x := by
  refine ⟨fun ⟨u, handed, reach⟩ => ?_, fun reach => ⟨_, .datum known closed, reach⟩⟩
  cases handed with
  | unknown none => cases none.symm.trans known
  | datum known' =>
    cases known.symm.trans known'
    exact reach
  | additional known' structured =>
    cases known.symm.trans known'
    cases closed structured
  | element => cases known
  | field known' structured =>
    cases known.symm.trans known'
    cases closed structured

theorem passes_of_fields (known : known? h roots p v = some (t, .record r))
    (structured : (s.type t).isStructured = true) :
    Passes s h roots p v x ↔
      ∃ e ∈ (h.fields r).entries, PassesUnder s h roots (s.type t) e.1 e.2 x := by
  constructor
  · rintro ⟨u, handed, reach⟩
    cases handed with
    | unknown none => cases none.symm.trans known
    | datum known' closed =>
      cases known.symm.trans known'
      cases closed structured
    | additional known' _ mem data undeclared allowed =>
      cases known.symm.trans known'
      exact ⟨_, mem, data, Or.inr ⟨undeclared, allowed, reach⟩⟩
    | element => cases known
    | field known' _ mem data declared persisted inside =>
      cases known.symm.trans known'
      exact ⟨_, mem, data, Or.inl ⟨_, declared, persisted, u, inside, reach⟩⟩
  · rintro ⟨⟨key, w⟩, mem, data, ⟨q, declared, persisted, u, inside, reach⟩ |
      ⟨undeclared, allowed, reach⟩⟩
    · exact ⟨u, .field known structured mem data declared persisted inside, reach⟩
    · exact ⟨w, .additional known structured mem data undeclared allowed, reach⟩

theorem passes_of_items :
    Passes s h roots p (.array a) x ↔
      ∃ v ∈ h.items a, Passes s h roots (p.bind (·.elementProperty?)) v x := by
  constructor
  · rintro ⟨u, handed, reach⟩
    cases handed with
    | element mem inside => exact ⟨_, mem, u, inside, reach⟩
    | datum known => cases known
    | additional known => cases known
    | field known => cases known
  · rintro ⟨v, mem, u, inside, reach⟩
    exact ⟨u, .element mem inside, reach⟩

theorem not_passes_of_isScalar (plain : v.isScalar = true) : ¬ Passes s h roots p v x := by
  have none : known? h roots p v = none := by cases v <;> first | rfl | cases plain
  rintro ⟨u, handed, -⟩
  cases handed with
  | unknown => cases plain
  | datum known => cases none.symm.trans known
  | additional known => cases none.symm.trans known
  | element => cases plain
  | field known => cases none.symm.trans known

theorem reachable_of_known? (tied : h.Tied s) (known : known? h roots p v = some (t, data)) :
    h.Reachable [v] data := by
  cases v with
  | model m =>
    cases known
    exact .child (.root List.mem_cons_self) List.mem_cons_self
  | record r =>
    obtain rfl := Interchange.known?_record (c := ⟨s, roots⟩) tied known
    exact .root List.mem_cons_self
  | _ => cases known

theorem HandedOn.reachable (tied : h.Tied s) (handed : HandedOn s h roots p v x) :
    h.Reachable [v] x := by
  have inside : ∀ {v w : Value} {r : RecordId} {key : String}, h.Reachable [v] (.record r) →
      (key, w) ∈ (h.fields r).entries → h.Reachable [v] w := fun reach mem =>
    .child reach (List.mem_map.2 ⟨_, mem, rfl⟩)
  induction handed with
  | unknown => exact .root List.mem_cons_self
  | datum known => exact reachable_of_known? tied known
  | additional known _ mem => exact inside (reachable_of_known? tied known) mem
  | element mem _ ih => exact ih.through mem
  | field known _ mem _ _ _ _ ih =>
    exact (inside (reachable_of_known? tied known) mem).trans ih

theorem Passes.reachable (tied : h.Tied s) (passes : Passes s h roots p v x) :
    h.Reachable [v] x := by
  obtain ⟨u, handed, reach⟩ := passes
  exact (handed.reachable tied).trans reach

theorem Passes.reachable_data {m : ModelId} (tied : h.Tied s) (data : h.data m = .record r)
    (structured : (s.type (h.type m)).isStructured = true)
    (passes : Passes s h roots p (.model m) x) : h.Reachable [h.data m] x := by
  have known : known? h roots p (.model m) = some (h.type m, .record r) := data ▸ rfl
  obtain ⟨e, mem, -, under⟩ := (passes_of_fields known structured).1 passes
  have part : h.Reachable [e.2] x := by
    rcases under with ⟨q, -, -, passes⟩ | ⟨-, -, reach⟩
    · exact passes.reachable tied
    · exact reach
  rw [data]
  exact part.through (List.mem_map.2 ⟨e, mem, rfl⟩)

end Passes

/-! ### What the copies lead to -/

variable {c : Context} {h h' h'' : Heap} {n : Nat} {p : Option Property} {v w x : Value} {st : State}
  {type : ModelType} {es : List (String × Value)}

/-- The second value leads to just those cells of before that are handed on for the first one. -/
def Shares (c : Context) (h h' : Heap) (p : Option Property) (v w : Value) : Prop :=
  ∀ x, x.isScalar = false → h.Holds x →
    (h'.Reachable [w] x ↔ Passes c.schema h c.roots p v x)

theorem reachable_after (a : After c h' h'') (fit : Fit c h') (there : h'.Holds w) :
    h''.Reachable [w] x ↔ h'.Reachable [w] x :=
  a.cells.reachable_iff fit.closed (List.forall_mem_singleton.2 there)

/-- A fresh cell leads to what its parts lead to. -/
theorem reachable_fresh {f : Value} (fresh : ¬ h.Holds f) (hx : h.Holds x) :
    h'.Reachable [f] x ↔ ∃ w ∈ h'.children f, h'.Reachable [w] x := by
  refine ⟨fun reach => ?_, fun ⟨w, mem, reach⟩ => reach.through mem⟩
  rcases reach.cases_child with rfl | inside
  · exact absurd hx fresh
  · exact inside

theorem reachable_freshArray {ws : List Value} (a : After c h h') (there : ∀ w ∈ ws, h'.Holds w)
    (hx : h.Holds x) :
    (h'.addArray ws).2.Reachable [.array (h'.addArray ws).1] x ↔ ∃ w ∈ ws, h'.Reachable [w] x := by
  have more : After c h' (h'.addArray ws).2 :=
    .step a.fit (.addArray fun w hw _ => there w hw) (h'.extends_addArray ws) rfl
  have children : (h'.addArray ws).2.children (.array (h'.addArray ws).1) = ws :=
    (h'.items_addArray ws _).trans (if_pos rfl)
  have fresh : ¬ h.Holds (.array (h'.addArray ws).1) := fun there =>
    absurd (Nat.lt_of_lt_of_le there a.cells.arrays.size_le) (Nat.lt_irrefl _)
  rw [reachable_fresh fresh hx, children]
  exact exists_congr fun w => and_congr_right fun hw => reachable_after more a.fit (there w hw)

theorem reachable_freshRecord {ws : List (String × Value)} (a : After c h h')
    (nodup : (ws.map Prod.fst).Nodup) (there : ∀ e ∈ ws, h'.Holds e.2) (scalar : x.isScalar = false)
    (hx : h.Holds x) :
    (h'.recordOf ws).2.Reachable [.record (h'.recordOf ws).1] x ↔
      ∃ e ∈ ws, h'.Reachable [e.2] x := by
  have more : After c h' (h'.recordOf ws).2 := by
    refine .step a.fit (.addRecord fun w hw _ => ?_) (h'.extends_addRecord _) rfl
    obtain ⟨e, he, rfl⟩ := List.mem_map.1 (Fields.mem_values_ofList hw)
    exact there e he
  have fields : (h'.recordOf ws).2.fields (h'.recordOf ws).1 = .ofList ws :=
    (h'.fields_addRecord _ _).trans (if_pos rfl)
  have fresh : ¬ h.Holds (.record (h'.recordOf ws).1) := fun there =>
    absurd (Nat.lt_of_lt_of_le there a.cells.records.size_le) (Nat.lt_irrefl _)
  rw [reachable_fresh fresh hx, Heap.children, fields, Fields.values,
    Fields.entries_ofList_filter nodup]
  constructor
  · rintro ⟨w, mem, reach⟩
    obtain ⟨e, he, rfl⟩ := List.mem_map.1 mem
    have he := (List.mem_filter.1 he).1
    exact ⟨e, he, (reachable_after more a.fit (there e he)).1 reach⟩
  · rintro ⟨e, he, reach⟩
    refine ⟨e.2, List.mem_map.2 ⟨e, List.mem_filter.2 ⟨he, ?_⟩, rfl⟩,
      (reachable_after more a.fit (there e he)).2 reach⟩
    obtain ⟨key, v⟩ := e
    rcases reach.cases_child with rfl | ⟨w, mem, -⟩
    · cases x <;> first | rfl | cases scalar
    · cases v <;> first | rfl | cases mem

/-- The action copies values of before so that they share what is handed on. -/
def Sharing (c : Context) (h : Heap) (n : Nat) (p : Option Property) (copy : Value → Action Value) :
    Prop :=
  ∀ (v : Value) (st : State), After c h st.heap → Given h n v →
    Shares c h (copy v c st).2.heap p v (copy v c st).1

theorem each_shares {copy : Value → Action Value} (hcopy : Sharing c h n p copy)
    (copying : Copying c n (.taken p) copy) {vs : List Value} (fit : Fit c h)
    (a : After c h st.heap) (given : ∀ v ∈ vs, Given h n v) (scalar : x.isScalar = false)
    (hx : h.Holds x) :
    (∃ w ∈ (each copy vs c st).1, (each copy vs c st).2.heap.Reachable [w] x) ↔
      ∃ v ∈ vs, Passes c.schema h c.roots p v x := by
  induction vs generalizing st with
  | nil => exact iff_of_false (fun ⟨_, mem, _⟩ => nomatch mem) fun ⟨_, mem, _⟩ => nomatch mem
  | cons v vs ih =>
    obtain ⟨hv, hvs⟩ := List.forall_mem_cons.1 given
    obtain ⟨step, copied⟩ := copying v st a.fit (hv.after fit a)
    have first := hcopy v st a hv x scalar hx
    have later : ∀ w ∈ vs, Given (copy v c st).2.heap n w := fun w hw =>
      (hvs w hw).after fit (a.trans step)
    obtain ⟨others, -⟩ := Interchange.each_copied copying step.fit later
    have rest := ih (a.trans step) hvs
    rw [List.exists_mem_cons_iff, ← rest, ← first,
      ← reachable_after others step.fit copied.given.there]
    exact List.exists_mem_cons_iff _ _ _

theorem entriesOf_shares {copy : Property → Value → Action Value}
    (hcopy : ∀ q, Sharing c h n (some q) (copy q))
    (copying : ∀ q, Copying c n (.taken (some q)) (copy q)) (fit : Fit c h) (a : After c h st.heap)
    (given : ∀ e ∈ es, Given h n e.2) (scalar : x.isScalar = false) (hx : h.Holds x) :
    (∃ e ∈ (entriesOf copy type es c st).1,
        (entriesOf copy type es c st).2.heap.Reachable [e.2] x) ↔
      ∃ e ∈ es, PassesUnder c.schema h c.roots type e.1 e.2 x := by
  induction es generalizing st with
  | nil => exact iff_of_false (fun ⟨_, mem, _⟩ => nomatch mem) fun ⟨_, mem, _⟩ => nomatch mem
  | cons e es ih =>
    obtain ⟨key, v⟩ := e
    obtain ⟨hv, hes⟩ := List.forall_mem_cons.1 given
    -- an entry that is left out passes nothing on
    have skip : ∀ st : State, After c h st.heap →
        ¬ PassesUnder c.schema h c.roots type key v x →
        ((∃ e ∈ (entriesOf copy type es c st).1,
            (entriesOf copy type es c st).2.heap.Reachable [e.2] x) ↔
          ∃ e ∈ (key, v) :: es, PassesUnder c.schema h c.roots type e.1 e.2 x) := by
      intro st a out
      rw [ih a hes, List.exists_mem_cons_iff, or_iff_right out]
    -- one that is kept leads to the same cells when the others have been copied
    have keep : ∀ (st : State) (w : Value), After c h st.heap → st.heap.Holds w →
        (st.heap.Reachable [w] x ↔ PassesUnder c.schema h c.roots type key v x) →
        ((∃ e ∈ (key, w) :: (entriesOf copy type es c st).1,
            (entriesOf copy type es c st).2.heap.Reachable [e.2] x) ↔
          ∃ e ∈ (key, v) :: es, PassesUnder c.schema h c.roots type e.1 e.2 x) := by
      intro st w a there same
      obtain ⟨others, -⟩ := Interchange.entriesOf_taken copying type a.fit fun e he =>
        (hes e he).after fit a
      rw [List.exists_mem_cons_iff, List.exists_mem_cons_iff, ih a hes,
        reachable_after others a.fit there, same]
    unfold entriesOf
    cases data : isReserved key with
    | true =>
      refine skip st a fun passes => ?_
      cases data.symm.trans passes.1
    | false =>
      rw [if_neg Bool.false_ne_true]
      cases declared : type.property? key with
      | some q =>
        dsimp only
        by_cases persisted : q.isPersisted = true
        · rw [if_pos persisted]
          obtain ⟨step, copied⟩ := copying q v st a.fit (hv.after fit a)
          refine keep _ _ (a.trans step) copied.given.there ?_
          rw [hcopy q v st a hv x scalar hx]
          simp [PassesUnder, data, declared, persisted]
        · rw [if_neg persisted]
          refine skip st a fun passes => ?_
          simp [PassesUnder, data, declared, persisted] at passes
      | none =>
        dsimp only
        by_cases allowed : type.allowsAdditional = true
        · rw [if_pos allowed]
          refine keep st v a (hv.after fit a).there ?_
          rw [reachable_after a fit hv.there]
          simp [PassesUnder, data, declared, allowed]
        · rw [if_neg allowed]
          refine skip (noteKey key c st).2 a fun passes => ?_
          simp [PassesUnder, data, declared, allowed] at passes

theorem dataOf_shares {copy : Property → Value → Action Value}
    (hcopy : ∀ q, Sharing c h n (some q) (copy q))
    (copying : ∀ q, Copying c n (.taken (some q)) (copy q)) (fit : Fit c h) (a : After c h st.heap)
    {t : TypeId} {data : Value} (known : known? h c.roots p v = some (t, data))
    (given : Given h (n + 1) data) :
    Shares c h (dataOf copy t data c st).2.heap p v (dataOf copy t data c st).1 := by
  intro x scalar hx
  by_cases closed : (c.schema.type t).isStructured = true → data.isRecord = false
  · have same : dataOf copy t data c st = (data, st) := by
      cases hd : data.isRecord with
      | false => exact dataOf_other hd
      | true =>
        obtain ⟨r, rfl⟩ := Value.exists_of_isRecord hd
        rw [dataOf_record, if_neg fun structured => nomatch closed structured]
    rw [same, passes_of_datum known closed]
    exact reachable_after a fit given.there
  · obtain ⟨structured, hd⟩ := Classical.not_imp.1 closed
    obtain ⟨r, rfl⟩ := Value.exists_of_isRecord (by simpa using hd)
    have inside : ∀ e ∈ (h.fields r).entries, Given h n e.2 := fun e he =>
      given.child fit (List.mem_map.2 ⟨e, he, rfl⟩)
    have fields : st.heap.fields r = h.fields r := by
      rw [Heap.fields, a.cells.records.getElem?_eq given.there, Heap.fields]
    rw [passes_of_fields known structured, ← entriesOf_shares hcopy copying fit a inside scalar hx,
      dataOf_record, if_pos structured, fields]
    obtain ⟨step, taken⟩ := Interchange.entriesOf_taken copying (c.schema.type t) a.fit fun e he =>
      (inside e he).after fit a
    generalize entriesOf copy (c.schema.type t) (h.fields r).entries c st = run at step taken ⊢
    obtain ⟨ws, st'⟩ := run
    refine reachable_freshRecord (a.trans step) (taken.keys.nodup (h.fields r).nodup)
      (fun e he => ?_) scalar hx
    obtain ⟨_, -, _, copied⟩ := taken.source he
    exact copied.given.there

theorem items_shares {depth : Nat} {i : ArrayId} {p : Option Property}
    (hcopy : Sharing c h n (p.bind (·.elementProperty?))
      (within depth (p.bind (·.elementProperty?))))
    (le : n ≤ depth) (fit : Fit c h) (a : After c h st.heap) (given : Given h (n + 1) (.array i)) :
    Shares c h (within (depth + 1) p (.array i) c st).2.heap p (.array i)
      (within (depth + 1) p (.array i) c st).1 := by
  intro x scalar hx
  have copying : Copying c n (.taken (p.bind (·.elementProperty?))) _ :=
    Interchange.within_copied le _
  have inside : ∀ w ∈ h.items i, Given h n w := fun w hw => given.child fit hw
  obtain ⟨step, copies⟩ := Interchange.each_copied copying a.fit fun w hw => (inside w hw).after fit a
  have same := each_shares hcopy copying fit a inside scalar hx
  rw [passes_of_items, ← same, within_array a.cells given.there]
  generalize each (within depth (p.bind (·.elementProperty?))) (h.items i) c st = run
    at step copies ⊢
  obtain ⟨ws, st'⟩ := run
  refine reachable_freshArray (a.trans step) (fun w hw => ?_) hx
  obtain ⟨v, -, copied⟩ := Interchange.Copied.source copies hw
  exact copied.given.there

/-- **A snapshot shares what is handed on, and nothing else**, if it went deep enough. -/
theorem within_shares {depth : Nat} (le : n ≤ depth) (fit : Fit c h) (p : Option Property) :
    Sharing c h n p (within depth p) := by
  induction depth generalizing n p with
  | zero =>
    obtain rfl : n = 0 := by omega
    exact fun _ _ _ given => given.nested.elim
  | succ depth ih =>
    intro v st a given
    obtain ⟨n, rfl⟩ : ∃ k, n = k + 1 := by
      cases n with
      | zero => exact given.nested.elim
      | succ k => exact ⟨k, rfl⟩
    have le : n ≤ depth := Nat.le_of_succ_le_succ le
    cases v with
    | array i => exact items_shares (ih le _) le fit a given
    | model m =>
      -- the depth goes down by two: the model, and the record that is copied for it
      have inside : Given h n (h.data m) := given.child fit List.mem_cons_self
      obtain ⟨k, rfl⟩ : ∃ k, n = k + 1 := by
        cases n with
        | zero => exact inside.nested.elim
        | succ k => exact ⟨k, rfl⟩
      have le : k ≤ depth := Nat.le_of_succ_le le
      rw [within_model a.cells given.there]
      exact dataOf_shares (fun q => ih le (some q)) (fun q => Interchange.within_copied le (some q))
        fit a rfl inside
    | record r =>
      rw [within_record, known?_eq fit.closed fit.roots a.cells given.there]
      rcases hk : known? h c.roots p (.record r) with _ | ⟨t, data⟩
      · intro x _ _
        rw [passes_of_unknown hk]
        exact reachable_after a fit given.there
      · obtain rfl := Interchange.known?_record fit.tied hk
        exact dataOf_shares (fun q => ih le (some q)) (fun q => Interchange.within_copied le (some q))
          fit a hk given
    | _ =>
      intro x scalar _
      refine ⟨fun reach => ?_, fun passes => absurd passes (not_passes_of_isScalar rfl)⟩
      rcases reach.cases_child with rfl | ⟨w, mem, -⟩
      · cases scalar
      · cases mem

/-- So it is for the snapshot of a value that does not contain itself. -/
theorem take_shares {s : Schema} {roots : List Value} (closed : h.Closed) (tied : h.Tied s)
    (there : ∀ u ∈ roots, h.Holds u) (held : h.Holds v) (acyclic : h.Acyclic v)
    (ds : Option (List Diagnostic)) (scalar : x.isScalar = false) (hx : h.Holds x) :
    (take s roots h ds v).2.heap.Reachable [(take s roots h ds v).1] x ↔
      Passes s h roots none v x := by
  have fit : Fit ⟨s, roots⟩ h := ⟨closed, tied, there⟩
  exact within_shares (Nat.le_refl _) fit none v ⟨h, ds⟩ (.refl fit)
    ⟨held, nested_of_acyclic closed acyclic held⟩ x scalar hx

end Overlay.Snapshot
