import Overlay.Proofs.Engine.Judging

/-!
# Models of plain data

What a program hands to the constructor of a type comes to the verdict on its tree, whatever it is,
and the model that is made stands for the fields of the verdict: its record shows them, and they are
known by the properties of the type.

* `Engine.construct_tree` : constructing from plain trees;
* `Engine.Stands.write` : writing a property of a model that stands for fields.
-/

namespace Overlay

namespace Engine

open Heap

/-- The cells that were there before, other than the record. -/
def Beside (h : Heap) (r : RecordId) (v : Value) : Prop := h.Holds v ∧ v ≠ .record r

/-- The model is one of the type around the record, and stands for these fields. -/
structure Stands (s : Schema) (t : TypeId) (r : RecordId) (m : ModelId) (fields : Entries)
    (h : Heap) : Prop where
  /-- The model is there. -/
  model : h.Holds (.model m)
  /-- So is the record. -/
  held : h.Holds (.record r)
  /-- The model is an instance of the type. -/
  type : h.type m = t
  /-- It wraps the record. -/
  data : h.data m = .record r
  /-- The record shows the keys. -/
  keys : (h.fields r).keys = fields.keys
  /-- It shows the trees. -/
  shows : h.Shows (Beside h r) (h.fields r).values (fields.map Prod.snd)
  /-- If storage keys belong to one property each, the fields are known by their properties. -/
  knows : s.Keyed (.model t) → ∀ key, isReserved key = false →
    Known s h ((s.type t).slot? key) ((h.fields r).get key)

/-- The model stands for the fields of the tree. -/
def Standing (s : Schema) (t : TypeId) (m : ModelId) (y : Tree) (h : Heap) : Prop :=
  ∃ r fields, y = .record fields ∧ Stands s t r m fields h

section Constructing

variable {s : Schema} {strict : Bool} {perform : Perform} {c : Context} {st : State}
  {F : Value → Prop} {t : TypeId} {r : RecordId} {m : ModelId} {v : Value} {x : Tree}
  {T cells : List Value} {fields : Entries} {h : Heap}

theorem Filled.stands (f : Filled s F T t r m fields h) (held : h.Holds (.record r))
    (cells : ∀ u, F u ∨ u ∈ T → Beside h r u) : Stands s t r m fields h where
  model := f.model
  held := held
  type := f.type
  data := f.data
  keys := f.keys
  shows := f.shows.mono cells
  knows := f.knows

/-- A record shows its fields as they are when what was stored of a value is written into it. -/
theorem shows_write {P : Value → Prop} {h' : Heap} {q : Slot} {w : Value} {y : Tree} (key : String)
    (held : h.Holds (.record r)) (keys : (h.fields r).keys = fields.keys)
    (shows : h.Shows P (h.fields r).values (fields.map Prod.snd)) (d : h.ChangesOnly h' T)
    (old : ∀ u, P u → h.Holds u ∧ u ∉ .record r :: T) (new : ∀ u ∈ T, h'.Holds u ∧ u ≠ .record r)
    (settled : Settled s (fun _ => False) T q v x w y h') :
    ((h'.insert r key w).fields r).keys = (Entries.put key y fields).keys ∧
      (h'.insert r key w).Shows (fun u => P u ∨ u ∈ T) ((h'.insert r key w).fields r).values
        ((Entries.put key y fields).map Prod.snd) := by
  have store : h'.ChangesOnly (h'.insert r key w) [.record r] :=
    h'.changesOnly_insert List.mem_cons_self _ _
  have whole : h.ChangesOnly (h'.insert r key w) (.record r :: T) :=
    (d.mono fun u hu => Or.inl (List.mem_cons_of_mem _ hu)).trans store fun u hu =>
      Or.inl (List.mem_singleton.1 hu ▸ List.mem_cons_self)
  have written : (h'.insert r key w).fields r = (h.fields r).insert key w := by
    rw [fields_insert, if_pos ⟨rfl, held.grows d.grows⟩,
      d.fields r held fun hr => (new _ hr).2 rfl]
  have keys' : ((h'.insert r key w).fields r).keys = (Entries.put key y fields).keys := by
    rw [written]
    exact settled.shows_stored.keys_insert keys _
  refine ⟨keys', .of_get keys' fun k => ?_⟩
  rw [written, Fields.get_insert, Entries.get_put]
  split
  · refine (settled.shows_stored.of_changesOnly store fun u hu => ?_).mono fun u hu =>
      Or.inr (hu.resolve_left id)
    have hu := hu.resolve_left id
    exact ⟨(new u hu).1, fun e => (new u hu).2 (List.mem_singleton.1 e)⟩
  · exact ((shows.get keys k).of_changesOnly whole old).mono fun u hu => Or.inl hu

/-- Writing what was stored of a fresh value under the storage key of a property. -/
theorem Stands.write (a : Stands s t r m fields h) {p : Property} {w : Value}
    {y : Tree} {h' : Heap}
    (found : s.Keyed (.model t) →
      (s.type t).property? p.storageKey = some p)
    (d : h.ChangesOnly h' T) (fresh : ∀ u ∈ T, h'.Holds u ∧ ¬ h.Holds u)
    (settled : Settled s (fun _ => False) T p.slot v x w y h') :
    Stands s t r m (Entries.put p.storageKey y fields) (h'.insert r p.storageKey w) := by
  have store : h'.ChangesOnly (h'.insert r p.storageKey w) [.record r] :=
    h'.changesOnly_insert List.mem_cons_self _ _
  have out : .record r ∉ T := fun hr => (fresh _ hr).2 a.held
  have held' : h'.Holds (.record r) := a.held.grows d.grows
  have whole : h.ChangesOnly (h'.insert r p.storageKey w) (.record r :: T) :=
    (d.mono fun u hu => Or.inl (List.mem_cons_of_mem _ hu)).trans store fun u hu =>
      Or.inl (List.mem_singleton.1 hu ▸ List.mem_cons_self)
  -- the fields that were there are of other cells than the record and the fresh ones
  have before : ∀ u, Beside h r u → h.Holds u ∧ u ∉ .record r :: T := fun u hu =>
    ⟨hu.1, fun hT => (List.mem_cons.1 hT).elim hu.2 fun hT => (fresh u hT).2 hu.1⟩
  have after : ∀ u ∈ T, h'.Holds u ∧ u ≠ .record r := fun u hu =>
    ⟨(fresh u hu).1, fun e => out (e ▸ hu)⟩
  obtain ⟨keys, shows⟩ := shows_write p.storageKey a.held a.keys a.shows d before after settled
  refine ⟨a.model.grows whole.grows, a.held.grows whole.grows,
    (whole.grows.type_eq a.model).trans a.type, (whole.grows.data_eq a.model).trans a.data,
    keys, shows.mono fun u hu => ?_, fun keyed k hk => ?_⟩
  · rcases hu with hu | hu
    · exact ⟨hu.1.grows whole.grows, hu.2⟩
    · exact ⟨(after u hu).1.grows store.grows, (after u hu).2⟩
  · rw [fields_insert, if_pos ⟨rfl, held'⟩, Fields.get_insert, d.fields r a.held out]
    split
    · rename_i e
      refine Known.of_changesOnly settled.shows_stored store (fun u hu => ?_) w List.mem_cons_self _ ?_
      · have hu := hu.resolve_left id
        exact ⟨(after u hu).1, fun e => (after u hu).2 (List.mem_singleton.1 e)⟩
      · rw [ModelType.slot?_of_data hk, e, found keyed]
        exact settled.known_stored (keyed.slot (found keyed))
    · exact Known.of_changesOnly (a.shows.get a.keys k) whole before _ List.mem_cons_self _
        (a.knows keyed k hk)

theorem fillFresh_judged (hp : Judges s strict perform) (hs : s.Stratified)
    (free : s.Free (.model t)) (hc : c.schema = s) {p : Option Property}
    (g : st.options.Gathers strict p) :
    Judged cells st (pure (.record [])) (Standing s t)
      ((allocate (·.addRecord .empty) >>= fillModel perform t (s.type t)) c st) := by
  let r := (st.heap.addRecord .empty).1
  let st₁ : State := { st with heap := (st.heap.addRecord .empty).2 }
  have ext : st.heap.Extends st₁.heap := st.heap.extends_addRecord .empty
  have held : st₁.heap.Holds (.record r) :=
    Nat.lt_of_lt_of_eq (Nat.lt_succ_self _) (Array.size_push _).symm
  have fields : st₁.heap.fields r = .empty := by
    exact (fields_addRecord ..).trans (if_pos rfl)
  have offered : Offered s st₁.heap (fun _ => False)
      ((st₁.heap.fields r).keys.map (s.type t).slot?) (st₁.heap.fields r).values
      (([] : Entries).map Prod.snd) [] := by
    rw [fields]
    exact ⟨.nil, List.nodup_nil, fun _ h => absurd h List.not_mem_nil,
      fun _ h => absurd h List.not_mem_nil, fun _ h => h.elim⟩
  have filled := fillModel_judged hp hs free hc (show st₁.options.Gathers strict p from g) held
    List.not_mem_nil (fun h => h) (by rw [fields]; rfl) offered
  rw [Tree.admitted] at filled
  refine .after st₁ [.record r] (ext.changesOnly cells) rfl
    (filled.map (f := Tree.record) fun m fs h d f => ⟨r, fs, rfl, ?_⟩) fun u hu => Or.inr ?_
  · refine f.stands (held.grows d.grows) fun u hu => ?_
    exact hu.elim (fun h => h.elim) fun h => absurd h List.not_mem_nil
  · cases List.mem_singleton.1 hu
    exact Nat.lt_irrefl _

theorem fillTree_judged (hp : Judges s strict perform) (hs : s.Stratified)
    (free : s.Free (.model t)) (hc : c.schema = s) {p : Option Property}
    (g : st.options.Gathers strict p) (trees : st.heap.Trees [.record r] cells)
    (nodup : cells.Nodup) (held : ∀ v ∈ cells, st.heap.Holds v) {es : Entries}
    (sh : st.heap.Shows (· ∈ cells) [.record r] [.record es]) :
    Judged cells st (Tree.admitted s strict t es [] es >>= fun fields => pure (.record fields))
      (Standing s t) (fillModel perform t (s.type t) r c st) := by
  obtain ⟨inside, rfl, -, within⟩ := trees.of_record
  obtain ⟨out, nodup⟩ := List.nodup_cons.1 nodup
  obtain ⟨xs, o⟩ := Offered.of_trees s within nodup
    (fun u hu => held u (List.mem_cons_of_mem _ hu))
    ((st.heap.fields r).keys.map (s.type t).slot?)
    ((List.length_map _).trans (st.heap.fields r).length_keys)
  obtain ⟨keys, rfl⟩ : (st.heap.fields r).keys = es.keys ∧ xs = es.map Prod.snd := by
    cases sh with
    | record _ keys shown _ => exact ⟨keys, o.shows.unique shown⟩
  have filled := fillModel_judged hp hs free hc g (held _ List.mem_cons_self) out (fun h => h) keys o
  refine filled.map (f := Tree.record) fun m fs h d f => ⟨r, fs, rfl, f.stands ?_ ?_⟩
  · exact (held _ List.mem_cons_self).grows d.grows
  · rintro u (hu | hu)
    · exact hu.elim
    · exact ⟨(held u (List.mem_cons_of_mem _ hu)).grows d.grows, fun e => out (e ▸ hu)⟩

/-- A value that is neither nothing nor a record is refused before a model of a fresh record is
made. -/
theorem refused_judged (hp : Judges s strict perform) (hs : s.Stratified)
    (free : s.Free (.model t)) (hc : c.schema = s) {p : Option Property}
    (g : st.options.Gathers strict p) (text : st.heap.text v = x.text) :
    Judged cells st (Verdict.invalid (p.map Property.name) x >>= fun _ => pure (.record []))
      (Standing s t) (((invalid v >>= fun _ => allocate (·.addRecord .empty)) >>=
        fillModel perform t (s.type t)) c st) := by
  have signalled : Judged [] st (Verdict.invalid (p.map Property.name) x)
      (fun _ _ h => h = st.heap) (invalid v c st) := .invalid g text rfl
  rw [bind_assoc]
  exact signalled.bind (fun _ h => absurd h List.not_mem_nil) fun _ _ st' _ noted _ =>
    fillFresh_judged hp hs free hc (noted ▸ g.noting _)

theorem constructed_other (allowed : (s.type t).allowsInstances = true)
    (structured : (s.type t).isStructured = true) (name : Option String)
    (hx : x.isRecord = false) :
    Tree.constructed s strict name t x =
      if x.isNothing then pure (.record [])
      else Verdict.invalid name x >>= fun _ => pure (.record []) := by
  unfold Tree.constructed
  rw [allowed, structured]
  cases x <;> first | rfl | cases hx

theorem fillFor_judged (hp : Judges s strict perform) (hs : s.Stratified)
    (free : s.Free (.model t)) (hc : c.schema = s) {p : Option Property}
    (g : st.options.Gathers strict p) (allowed : (s.type t).allowsInstances = true)
    (structured : (s.type t).isStructured = true) (trees : st.heap.Trees [v] cells)
    (nodup : cells.Nodup) (held : ∀ v ∈ cells, st.heap.Holds v)
    (sh : st.heap.Shows (· ∈ cells) [v] [x]) :
    Judged cells st (Tree.constructed s strict (p.map Property.name) t x) (Standing s t)
      ((recordFor (some v) >>= fillModel perform t (s.type t)) c st) := by
  have record := sh.isRecord_eq
  have nothing := sh.isNothing_eq
  have text := sh.text_eq held
  cases v with
  | record r =>
    obtain ⟨es, rfl⟩ : ∃ es, x = .record es := by
      cases x <;> first | exact ⟨_, rfl⟩ | cases record
    unfold Tree.constructed
    rw [allowed, structured]
    exact fillTree_judged hp hs free hc g trees nodup held sh
  | undefined =>
    rw [constructed_other allowed structured _ record, nothing]
    exact fillFresh_judged hp hs free hc g
  | null =>
    rw [constructed_other allowed structured _ record, nothing]
    exact fillFresh_judged hp hs free hc g
  | _ =>
    rw [constructed_other allowed structured _ record, nothing]
    exact refused_judged hp hs free hc g text

/-- What is handed to the constructor of a type comes to the verdict on its tree. -/
theorem construct_tree (hp : Judges s strict perform) (hs : s.Stratified)
    (free : s.Free (.model t)) (hc : c.schema = s) {p : Option Property}
    (g : st.options.Gathers strict p) {data : Option Value}
    (trees : st.heap.Trees [data.getD .undefined] cells) (nodup : cells.Nodup)
    (held : ∀ v ∈ cells, st.heap.Holds v)
    (sh : st.heap.Shows (· ∈ cells) [data.getD .undefined] [x]) :
    Judged cells st (Tree.constructed s strict (p.map Property.name) t x)
      (fun m y h => (s.type t).isStructured = true → Standing s t m y h)
      (construct perform t data c st) := by
  cases allowed : (s.type t).allowsInstances with
  | false =>
    rw [construct_barred perform hc allowed]
    unfold Tree.constructed
    rw [allowed]
    exact .raise (c := c) _
  | true =>
    cases structured : (s.type t).isStructured with
    | false =>
      have made : Judged [] st _ (fun _ _ _ => True) (construct perform t data c st) :=
        constructBare_judged free hc structured data
      rw [allowed, if_pos rfl] at made
      unfold Tree.constructed
      rw [allowed, structured]
      exact (made.map (f := fun _ => x) fun _ _ _ _ _ h => nomatch h).mono
        (fun _ h => absurd h List.not_mem_nil) fun _ _ _ _ r => r
    | true =>
      have chosen : recordFor data = recordFor (some (data.getD .undefined)) := by
        cases data <;> rfl
      rw [construct_structured perform hc allowed structured, chosen]
      exact (fillFor_judged hp hs free hc g allowed structured trees nodup held sh).mono
        (fun _ h => Or.inl h) fun _ _ _ _ r _ => r

end Constructing

end Engine

end Overlay
