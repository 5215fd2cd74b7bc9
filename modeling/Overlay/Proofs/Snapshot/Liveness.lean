import Overlay.Proofs.Engine.Runs
import Overlay.Proofs.Heap.Cells
import Overlay.Proofs.Heap.Reach
import Overlay.Proofs.Schema.Built
import Overlay.Proofs.Snapshot.Extension

/-!
# Snapshots and the models that are held

A nested record is known by the model attached to it while something holds that model, and else by
the declared type of its field.  So what a snapshot contains may depend on what else is held.  It
does not where the two types take a snapshot of the record in the same way.

* `Snapshot.Visited` : the values that taking a snapshot comes to, with their properties;
* `Snapshot.take_eq_of_indifferent` : the snapshots are the same if every record that is come to is
  indifferent to what is held;
* `Snapshot.loses_field_of_released` : they are not the same in general.
-/

namespace Overlay

/-- The two types take a snapshot of a record with these keys in the same way. -/
structure ModelType.SnapshotsLike (t u : ModelType) (keys : List String) : Prop where
  /-- Either both or none of them look inside. -/
  structured : t.isStructured = u.isStructured
  /-- They have the same properties under the keys. -/
  property : t.isStructured = true → ∀ key ∈ keys, isReserved key = false →
    t.property? key = u.property? key
  /-- They treat the keys without a property alike. -/
  additional : t.isStructured = true → ∀ key ∈ keys, isReserved key = false →
    t.property? key = none → t.allowsAdditional = u.allowsAdditional

theorem ModelType.SnapshotsLike.refl (t : ModelType) (keys : List String) :
    t.SnapshotsLike t keys :=
  ⟨rfl, fun _ _ _ _ => rfl, fun _ _ _ _ _ => rfl⟩

theorem ModelType.SnapshotsLike.symm {t u : ModelType} {keys : List String}
    (h : t.SnapshotsLike u keys) : u.SnapshotsLike t keys where
  structured := h.structured.symm
  property := fun hs key hk hr => (h.property (h.structured.trans hs) key hk hr).symm
  additional := fun hs key hk hr hn =>
    have ht := h.structured.trans hs
    (h.additional ht key hk hr ((h.property ht key hk hr).trans hn)).symm

namespace Snapshot

/-! ### What a snapshot comes to -/

section Positions

variable (s : Schema) (h : Heap) (roots : List Value)

/-- The type by which a value is known, and the datum known by it. -/
def known? (p : Option Property) : Value → Option (TypeId × Value)
  | .model m => some (h.type m, h.data m)
  | .record r =>
    match h.wrapper? roots r with
    | some m => some (h.type m, h.data m)
    | none => (p.bind (·.type.model?)).map (·, .record r)
  | _ => none

/-- The values that the snapshot of a model comes to, each with the property it is found by. -/
inductive Visited (m : ModelId) : Option Property → Value → Prop
  /-- The model itself. -/
  | start : Visited m none (.model m)
  /-- The elements of an array. -/
  | element {p : Option Property} {a : ArrayId} {v : Value} (array : Visited m p (.array a))
      (mem : v ∈ h.items a) : Visited m (p.bind (·.elementProperty?)) v
  /-- The persisted fields of a record. -/
  | field {p : Option Property} {v w : Value} {t : TypeId} {r : RecordId} {key : String}
      {q : Property} (parent : Visited m p v) (known : known? h roots p v = some (t, .record r))
      (mem : (key, w) ∈ (h.fields r).entries) (data : isReserved key = false)
      (declared : (s.type t).property? key = some q) (persisted : q.isPersisted = true) :
      Visited m (some q) w

/-- It makes no difference to a record in a field which of the two lists of values are held: either
the same model is found from it, or a model that wraps it is found in one case only and its type
takes a snapshot of the record like the declared one. -/
def Indifferent (roots' : List Value) (p : Option Property) (r : RecordId) : Prop :=
  h.wrapper? roots r = h.wrapper? roots' r ∨
    ∃ t u, p.bind (·.type.model?) = some t ∧ h.attached? r = some u ∧ h.data u = .record r ∧
      (s.type t).SnapshotsLike (s.type (h.type u)) (h.fields r).keys

end Positions

variable {s : Schema} {h : Heap} {roots roots' : List Value} {m : ModelId}

theorem holds_of_known? (hc : h.Closed) (hr : ∀ v ∈ roots, h.Holds v) {p : Option Property}
    {v data : Value} {t : TypeId} (hv : h.Holds v) (hk : known? h roots p v = some (t, data)) :
    h.Holds data := by
  cases v with
  | model u =>
    cases hk
    exact hc _ hv _ List.mem_cons_self
  | record r =>
    simp only [known?] at hk
    split at hk
    · rename_i u hu
      cases hk
      exact hc _ (Heap.holds_of_wrapper? hc hr hu) _ List.mem_cons_self
    · obtain ⟨t', -, ht'⟩ := Option.map_eq_some_iff.1 hk
      cases ht'
      exact hv
  | _ => cases hk

theorem Visited.holds (hc : h.Closed) (hr : ∀ v ∈ roots, h.Holds v) (hm : h.Holds (.model m))
    {p : Option Property} {v : Value} (hv : Visited s h roots m p v) : h.Holds v := by
  induction hv with
  | start => exact hm
  | element _ mem ih => exact hc _ ih _ mem
  | @field p v w t r key q _ known mem _ _ _ ih =>
    exact hc (.record r) (holds_of_known? hc hr ih known) w
      (List.mem_map.2 ⟨(key, w), mem, rfl⟩)

/-! ### The two snapshots -/

section Steps

variable {c c' : Context} {st : State}

theorem each_eq {copy : Value → Action Value} (hx : ∀ v, Extending (copy v)) {vs : List Value}
    (hv : ∀ v ∈ vs, ∀ st : State, h.Extends st.heap → copy v c st = copy v c' st)
    (hst : h.Extends st.heap) : each copy vs c st = each copy vs c' st := by
  induction vs generalizing st with
  | nil => rfl
  | cons v vs ih =>
    have first := hv v List.mem_cons_self st hst
    have rest := ih (fun w hw => hv w (List.mem_cons_of_mem _ hw)) (hst.trans (hx v c st))
    simp only [each, bind_run, ← first, ← rest]
    rfl

theorem entriesOf_eq {copy : Property → Value → Action Value} (hx : ∀ p v, Extending (copy p v))
    {t u : ModelType} {es : List (String × Value)}
    (hv : ∀ key v q, (key, v) ∈ es → isReserved key = false → t.property? key = some q →
      q.isPersisted = true → ∀ st : State, h.Extends st.heap → copy q v c st = copy q v c' st)
    (hp : ∀ e ∈ es, isReserved e.1 = false → t.property? e.1 = u.property? e.1)
    (ha : ∀ e ∈ es, isReserved e.1 = false → t.property? e.1 = none →
      t.allowsAdditional = u.allowsAdditional)
    (hst : h.Extends st.heap) : entriesOf copy t es c st = entriesOf copy u es c' st := by
  induction es generalizing st with
  | nil => rfl
  | cons e es ih =>
    obtain ⟨key, v⟩ := e
    have rest := fun (st : State) (hst : h.Extends st.heap) =>
      ih (fun key v q hm => hv key v q (List.mem_cons_of_mem _ hm))
        (fun e he => hp e (List.mem_cons_of_mem _ he))
        (fun e he => ha e (List.mem_cons_of_mem _ he)) hst
    unfold entriesOf
    by_cases hk : isReserved key = true
    · rw [if_pos hk, if_pos hk]
      exact rest st hst
    · have hk' : isReserved key = false := by simpa using hk
      rw [if_neg hk, if_neg hk, ← hp _ List.mem_cons_self hk']
      rcases hq : t.property? key with _ | q
      · dsimp only
        rw [← ha _ List.mem_cons_self hk' hq]
        by_cases had : t.allowsAdditional = true
        · rw [if_pos had, if_pos had]
          simp only [bind_run, rest st hst]
          rfl
        · rw [if_neg had, if_neg had]
          exact rest _ (hst.trans (noteKey_extending key c st))
      · dsimp only
        by_cases hpq : q.isPersisted = true
        · rw [if_pos hpq, if_pos hpq]
          have first := hv key v q List.mem_cons_self hk' hq hpq st hst
          have next := rest (copy q v c st).2 (hst.trans (hx q v c st))
          simp only [bind_run, ← first, next]
          rfl
        · rw [if_neg hpq, if_neg hpq]
          exact rest st hst

/-- Two types that take a snapshot of the record in the same way give the same one, if the fields
that persist do. -/
theorem dataOf_eq {copy : Property → Value → Action Value} (hx : ∀ p v, Extending (copy p v))
    (hs : c.schema = s) (hs' : c'.schema = s) {t u : TypeId} {data : Value}
    (hd : h.Holds data)
    (like : ∀ r, data = .record r →
      (s.type t).SnapshotsLike (s.type u) (h.fields r).keys)
    (hv : ∀ r key v q, data = .record r → (key, v) ∈ (h.fields r).entries →
      isReserved key = false → (s.type t).property? key = some q → q.isPersisted = true →
      ∀ st : State, h.Extends st.heap → copy q v c st = copy q v c' st)
    (hst : h.Extends st.heap) : dataOf copy t data c st = dataOf copy u data c' st := by
  cases data with
  | record r =>
    obtain ⟨structured, property, additional⟩ := like r rfl
    rw [dataOf_record, dataOf_record, hs, hs', ← structured]
    cases hts : (s.type t).isStructured with
    | false => rfl
    | true =>
      have fields : st.heap.fields r = h.fields r := by
        rw [Heap.fields, hst.records.getElem?_eq hd, Heap.fields]
      have mem : ∀ e ∈ (h.fields r).entries, e.1 ∈ (h.fields r).keys := fun e he =>
        List.mem_map.2 ⟨e, he, rfl⟩
      have entries : entriesOf copy (s.type t) (h.fields r).entries c st =
          entriesOf copy (s.type u) (h.fields r).entries c' st :=
        entriesOf_eq hx (fun key v q => hv r key v q rfl)
          (fun e he => property hts e.1 (mem e he)) (fun e he => additional hts e.1 (mem e he)) hst
      rw [fields, entries]
      rfl
  | _ => rw [dataOf_other rfl, dataOf_other rfl]

end Steps

/-- A record that a type knows is copied by that type; any other one stands for itself. -/
theorem within_record (depth : Nat) (p : Option Property) (r : RecordId) (c : Context)
    (st : State) :
    within (depth + 1) p (.record r) c st =
      (known? st.heap c.roots p (.record r)).elim (.record r, st) fun known =>
        dataOf (fun p => within depth (some p)) known.1 known.2 c st := by
  unfold within
  dsimp only
  rw [bind_run, wrapper?_run]
  simp only [known?]
  rcases st.heap.wrapper? c.roots r with _ | u
  · rcases p.bind (·.type.model?) with _ | t <;> rfl
  · rfl

theorem within_array {a : ArrayId} {st : State} (ext : h.Extends st.heap)
    (held : h.Holds (.array a)) (depth : Nat) (p : Option Property) (c : Context) :
    within (depth + 1) p (.array a) c st =
      freshArray (each (within depth (p.bind (·.elementProperty?))) (h.items a) c st).1 c
        (each (within depth (p.bind (·.elementProperty?))) (h.items a) c st).2 := by
  have items : st.heap.items a = h.items a := by
    rw [Heap.items, ext.arrays.getElem?_eq held, Heap.items]
  rw [← items]
  rfl

theorem within_model {m : ModelId} {st : State} (ext : h.Extends st.heap)
    (held : h.Holds (.model m)) (depth : Nat) (p : Option Property) (c : Context) :
    within (depth + 1) p (.model m) c st =
      dataOf (fun p => within depth (some p)) (h.type m) (h.data m) c st := by
  rw [← ext.grows.type_eq held, ← ext.grows.data_eq held]
  rfl

theorem known?_eq (hc : h.Closed) (hr : ∀ v ∈ roots, h.Holds v) {h' : Heap} (ext : h.Extends h')
    {r : RecordId} (hrec : r.index < h.records.size) (p : Option Property) :
    known? h' roots p (.record r) = known? h roots p (.record r) := by
  simp only [known?]
  rw [ext.wrapper?_eq hc hr hrec]
  rcases hw : h.wrapper? roots r with _ | u
  · rfl
  · have hu := Heap.holds_of_wrapper? hc hr hw
    dsimp only
    rw [ext.grows.type_eq hu, ext.grows.data_eq hu]

/-- A record with a model attached that wraps it is known by the type of that model or by the
declared one. -/
theorem known?_of_attached {p : Option Property} {r : RecordId} {t : TypeId} {u : ModelId}
    (hp : p.bind (·.type.model?) = some t) (ha : h.attached? r = some u)
    (hu : h.data u = .record r) (roots : List Value) :
    ∃ t', (t' = t ∨ t' = h.type u) ∧ known? h roots p (.record r) = some (t', .record r) := by
  simp only [known?, Heap.wrapper?, Heap.attachedIn?, ha, Option.filter_some, hp]
  split
  · rename_i u' h'
    split at h'
    · cases h'
      exact ⟨_, Or.inr rfl, by rw [hu]⟩
    · cases h'
  · exact ⟨t, Or.inl rfl, rfl⟩

/-- From a value that the snapshot comes to, the two runs go on in the same way. -/
theorem within_eq (hc : h.Closed) (hr : ∀ v ∈ roots, h.Holds v) (hr' : ∀ v ∈ roots', h.Holds v)
    (hm : h.Holds (.model m))
    (hi : ∀ p r, Visited s h roots m p (.record r) → Indifferent s h roots roots' p r)
    (depth : Nat) {p : Option Property} {v : Value} (hv : Visited s h roots m p v) {st : State}
    (hst : h.Extends st.heap) :
    within depth p v ⟨s, roots⟩ st = within depth p v ⟨s, roots'⟩ st := by
  induction depth generalizing p v st with
  | zero => rfl
  | succ depth ih =>
    have hx : ∀ p v, Extending (within depth (some p) v) := fun p => within_extending depth (some p)
    -- data known by a type in the first run, and by one like it in the second
    have data : ∀ {t u : TypeId} {data : Value}, known? h roots p v = some (t, data) →
        (∀ r, data = .record r → (s.type t).SnapshotsLike (s.type u) (h.fields r).keys) →
        dataOf (fun p => within depth (some p)) t data ⟨s, roots⟩ st =
          dataOf (fun p => within depth (some p)) u data ⟨s, roots'⟩ st := by
      intro t u data known like
      refine dataOf_eq (s := s) hx rfl rfl (holds_of_known? hc hr (hv.holds hc hr hm) known) like
        ?_ hst
      rintro r key w q rfl mem hk hq hp st hst
      exact ih (.field hv known mem hk hq hp) hst
    cases v with
    | array a =>
      have held := hv.holds hc hr hm
      have elements : each (within depth (p.bind (·.elementProperty?))) (h.items a) ⟨s, roots⟩ st =
          each (within depth (p.bind (·.elementProperty?))) (h.items a) ⟨s, roots'⟩ st :=
        each_eq (within_extending depth (p.bind (·.elementProperty?)))
          (fun w hw st hst => ih (.element hv hw) hst) hst
      rw [within_array hst held, within_array hst held, elements]
      rfl
    | model u =>
      have held := hv.holds hc hr hm
      rw [within_model hst held, within_model hst held]
      exact data rfl fun r _ => .refl _ _
    | record r =>
      have hrec : r.index < h.records.size := hv.holds hc hr hm
      rw [within_record, within_record, known?_eq hc hr hst hrec, known?_eq hc hr' hst hrec]
      rcases hi p r hv with eq | ⟨t, u, hp, ha, hu, like⟩
      · have known : known? h roots' p (.record r) = known? h roots p (.record r) := by
          simp only [known?, eq]
        rw [known]
        rcases hk : known? h roots p (.record r) with _ | ⟨t, w⟩
        · rfl
        · exact data hk fun r _ => .refl _ _
      · -- in each run the record is known by the declared type or by the one of the model
        obtain ⟨t₁, h₁, hk₁⟩ := known?_of_attached hp ha hu roots
        obtain ⟨t₂, h₂, hk₂⟩ := known?_of_attached hp ha hu roots'
        rw [hk₁, hk₂]
        refine data hk₁ fun r' e => ?_
        cases e
        rcases h₁ with rfl | rfl <;> rcases h₂ with rfl | rfl
        · exact .refl _ _
        · exact like
        · exact like.symm
        · exact .refl _ _
    | _ => rfl

/-- **A snapshot does not depend on what is held**, as long as every record that it comes to is
indifferent: where a model attached to a record is held in one case only, its type takes a snapshot
of the record like the type that the field is declared with.  Then the snapshot, the cells added
for it and the keys noted are the same. -/
theorem take_eq_of_indifferent (hc : h.Closed) (hr : ∀ v ∈ roots, h.Holds v)
    (hr' : ∀ v ∈ roots', h.Holds v) (hm : h.Holds (.model m))
    (hi : ∀ p r, Visited s h roots m p (.record r) → Indifferent s h roots roots' p r)
    (ds : Option (List Diagnostic)) :
    take s roots h ds (.model m) = take s roots' h ds (.model m) :=
  within_eq hc hr hr' hm hi _ .start (.refl h)

/-! ### Dogs and their owners -/

/-- What declares these texts. -/
def texts (name : String) (ps : List String) : Extension :=
  { Extension.empty with name := some name, properties := ps.map fun p => (p, .marker .string) }

/-- What declares an owner of a pet. -/
def owners : Extension :=
  { Extension.empty with name := some "Owner", properties := [("pet", .type (.model ⟨1⟩))] }

/-- Pets have a name, dogs are pets that know a trick, and owners have a pet. -/
def ownerSchema : Schema :=
  let s := (Schema.initial.addModel (.extended .root .root (texts "Pet" ["name"])
    [⟨"name", "name", .builtin .string, [], none, none, true⟩])).2
  let s := (s.addModel (.extended ⟨1⟩ (s.type ⟨1⟩) (texts "Dog" ["trick"])
    [⟨"trick", "trick", .builtin .string, [], none, none, true⟩])).2
  (s.addModel (.extended .root .root owners
    [⟨"pet", "pet", .model ⟨1⟩, [], none, none, true⟩])).2

theorem ownerSchema_built : ownerSchema.Built :=
  have pets := Schema.Built.initial.extend .root (texts "Pet" ["name"]) (by decide)
    ⟨rfl, nofun, rfl, rfl⟩ rfl (by decide)
  have dogs := pets.extend ⟨1⟩ (texts "Dog" ["trick"]) (by decide) ⟨rfl, nofun, rfl, rfl⟩ rfl
    (by decide)
  dogs.extend .root owners (by decide) ⟨rfl, nofun, rfl, rfl⟩ rfl (by decide)

/-- A record with this model attached in a field of another one. -/
def owned (pet : TypeId) (entries : List (String × Value)) : Heap :=
  ⟨#[⟨.ofList entries, some ⟨0⟩⟩, ⟨.ofList [("pet", .record ⟨0⟩)], some ⟨1⟩⟩], #[],
    #[⟨pet, .record ⟨0⟩⟩, ⟨⟨3⟩, .record ⟨1⟩⟩]⟩

/-- A pet with a name, and its owner. -/
def petAndOwner : Heap := owned ⟨1⟩ [("name", .string "Rex")]

theorem visited_petAndOwner {p : Option Property} {v : Value}
    (hv : Visited ownerSchema petAndOwner [.model ⟨1⟩, .model ⟨0⟩] ⟨1⟩ p v) :
    v = .model ⟨1⟩ ∨ (v = .record ⟨0⟩ ∧ p.bind (·.type.model?) = some ⟨1⟩) ∨ v = .string "Rex" := by
  induction hv with
  | start => exact Or.inl rfl
  | element _ _ ih => rcases ih with h | ⟨h, -⟩ | h <;> cases h
  | @field p v w t r key q _ known mem _ declared _ ih =>
    rcases ih with rfl | ⟨rfl, -⟩ | rfl
    · cases (Option.some.inj known : ((⟨3⟩, .record ⟨1⟩) : TypeId × Value) = (t, .record r))
      cases List.mem_singleton.1 (mem : (key, w) ∈ [("pet", Value.record ⟨0⟩)])
      have hq := Option.some.inj (declared : some _ = some q)
      exact Or.inr (Or.inl ⟨rfl, hq ▸ rfl⟩)
    · have found : petAndOwner.wrapper? [.model ⟨1⟩, .model ⟨0⟩] ⟨0⟩ = some ⟨0⟩ := by
        decide +kernel
      simp only [known?, found] at known
      cases (Option.some.inj known : ((⟨1⟩, .record ⟨0⟩) : TypeId × Value) = (t, .record r))
      cases List.mem_singleton.1 (mem : (key, w) ∈ [("name", Value.string "Rex")])
      exact Or.inr (Or.inr rfl)
    · cases known

/-- The snapshot of the owner is the same whether anything else holds the pet or not. -/
theorem take_eq_of_indifferent_petAndOwner :
    take ownerSchema [.model ⟨1⟩, .model ⟨0⟩] petAndOwner (some []) (.model ⟨1⟩) =
      take ownerSchema [.model ⟨1⟩] petAndOwner (some []) (.model ⟨1⟩) := by
  refine take_eq_of_indifferent (Heap.closed_of_cells (by decide)) (by decide) (by decide)
    (by decide) (fun p r hv => Or.inr ?_) _
  rcases visited_petAndOwner hv with h | ⟨h, hp⟩ | h
  · cases h
  · cases h
    exact ⟨⟨1⟩, ⟨0⟩, hp, rfl, rfl, .refl _ _⟩
  · cases h

/-- Makes a dog of the record and an owner of the dog. -/
def adopt : Engine ModelId := do
  let dog ← Engine.create ⟨2⟩ (some (.record ⟨0⟩))
  let owner ← Engine.holding [.model dog] (Engine.create ⟨3⟩ none)
  Engine.holding [.model dog, .model owner] (Engine.set owner "pet" (.model dog))
  return owner

/-- The state after the adoption of a dog. -/
def adopted : Except Fault ModelId × Overlay.State :=
  adopt ⟨ownerSchema, [.record ⟨0⟩]⟩
    ⟨⟨#[⟨.ofList [("name", .string "Rex"), ("trick", .string "roll")], none⟩], #[], #[]⟩,
      .throwing, []⟩

/-- The snapshot of the owner, with the keys that are not recognised. -/
def ownerSnapshot (held : List Value) : Value × State :=
  take ownerSchema held adopted.2.heap (some []) (.model ⟨1⟩)

/-- The trick that the snapshot of the owner knows of. -/
def trick (snapshot : Value × State) : Value :=
  let field (v : Value) (key : String) : Value :=
    v.record?.elim .undefined fun r => (snapshot.2.heap.fields r).get key
  field (field snapshot.1 "pet") "trick"

/-- Once nothing else holds the dog, the snapshot of its owner has lost the trick. -/
theorem loses_field_of_released :
    ownerSchema.Built ∧ adopted.1 = .ok ⟨1⟩ ∧
      trick (ownerSnapshot [.model ⟨1⟩, .model ⟨0⟩]) = .string "roll" ∧
      (ownerSnapshot [.model ⟨1⟩, .model ⟨0⟩]).2.diagnostics = some [] ∧
      trick (ownerSnapshot [.model ⟨1⟩]) = .undefined ∧
      (ownerSnapshot [.model ⟨1⟩]).2.diagnostics =
        some [.recorded (.unrecognizedKey "trick")] := by
  refine ⟨ownerSchema_built, ?_, ?_, ?_, ?_, ?_⟩
  all_goals decide +kernel

end Snapshot

end Overlay
