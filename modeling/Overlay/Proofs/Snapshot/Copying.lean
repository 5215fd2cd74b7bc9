import Overlay.Proofs.Heap.Known
import Overlay.Proofs.Plain.Cleaning
import Overlay.Proofs.Snapshot.Liveness

/-!
# What snapshots look like

The snapshot of what is known by its slot shows the clean form of its tree, whatever is held.  What
goes through slots of its own is made of fresh cells, and the rest may be shared with what was
there, as far as that has no models attached.  So a snapshot can be handed in like fresh plain data.

* `Snapshot.Copied` : copies of fresh and of shared cells;
* `Snapshot.Rebuilt` : a fresh record of such copies;
* `Snapshot.within_copied` : the snapshot of a field is a copy;
* `Snapshot.take_rebuilt` : the snapshot of a model is a fresh record.
-/

namespace Overlay

namespace Snapshot

open Heap

/-- Copies were added.  They show these trees in these slots, by own cells, which were not there
before, and by shared cells of this kind. -/
structure Copied (s : Schema) (F : Value → Prop) (before after : Heap) (qs : List (Option Slot))
    (vs : List Value) (xs : List Tree) (T : List Value) : Prop where
  /-- What was there is the same. -/
  more : before.Extends after
  /-- What the copies show. -/
  laid : Laid s after F qs vs xs T
  /-- The own cells are different. -/
  nodup : T.Nodup
  /-- They are new. -/
  fresh : ∀ v ∈ T, after.Holds v ∧ ¬ before.Holds v
  /-- They have no models attached. -/
  free : ∀ r, .record r ∈ T → after.attached? r = none

namespace Copied

variable {s : Schema} {F : Value → Prop} {h h' h'' : Heap} {q : Option Slot}
  {qs : List (Option Slot)} {v : Value} {vs : List Value} {x : Tree} {xs : List Tree}
  {T T' : List Value}

theorem nil : Copied s F h h [] [] [] [] :=
  ⟨.refl h, .nil, List.nodup_nil, fun _ hv => absurd hv List.not_mem_nil,
    fun _ hr => absurd hr List.not_mem_nil⟩

theorem cons (first : Copied s F h h' [q] [v] [x] T) (rest : Copied s F h' h'' qs vs xs T')
    (shared : ∀ u, F u → h.Holds u) : Copied s F h h'' (q :: qs) (v :: vs) (x :: xs) (T ++ T') where
  more := first.more.trans rest.more
  laid := by
    refine (first.laid.of_changesOnly (rest.more.changesOnly []) (fun u hu => ?_) fun u hu => ?_).cons
      rest.laid
    · exact ⟨(shared u hu).grows first.more.grows, List.not_mem_nil⟩
    · exact ⟨(first.fresh u hu).1, List.not_mem_nil⟩
  nodup := List.nodup_append.2 ⟨first.nodup, rest.nodup, fun u hu w hw e =>
    (rest.fresh w hw).2 (e ▸ (first.fresh u hu).1)⟩
  fresh := fun u hu => by
    rcases List.mem_append.1 hu with hu | hu
    · exact ⟨(first.fresh u hu).1.grows rest.more.grows, (first.fresh u hu).2⟩
    · exact ⟨(rest.fresh u hu).1, fun held => (rest.fresh u hu).2 (held.grows first.more.grows)⟩
  free := fun r hr => by
    rcases List.mem_append.1 hr with hr | hr
    · exact (rest.more.attached?_eq (first.fresh _ hr).1).trans (first.free r hr)
    · exact rest.free r hr

/-- What is made of shared cells stands for itself. -/
theorem shared (still : x.Still s q) (sh : h.Shows F [v] [x]) : Copied s F h h [q] [v] [x] [] := by
  refine ⟨.refl h, ?_, List.nodup_nil, fun _ hv => absurd hv List.not_mem_nil,
    fun _ hr => absurd hr List.not_mem_nil⟩
  exact .still (T := []) still (sh.mono fun _ => Or.inl) .nil

theorem array (inside : Copied s F h h' (vs.map fun _ => q.bind Slot.element?) vs xs T)
    (held : ∀ u, F u → h.Holds u) :
    Copied s F h (h'.addArray vs).2 [q] [.array (h'.addArray vs).1] [.array xs]
      (.array (h'.addArray vs).1 :: T) := by
  let a := (h'.addArray vs).1
  have more : h'.Extends (h'.addArray vs).2 := h'.extends_addArray vs
  have new : (h'.addArray vs).2.Holds (.array a) ∧ ¬ h'.Holds (.array a) :=
    ⟨Nat.lt_of_lt_of_eq (Nat.lt_succ_self _) (Array.size_push _).symm, Nat.lt_irrefl _⟩
  have items : (h'.addArray vs).2.items a = vs := (h'.items_addArray vs a).trans (if_pos rfl)
  have inside' : Laid s (h'.addArray vs).2 F (((h'.addArray vs).2.items a).map fun _ =>
      q.bind Slot.element?) ((h'.addArray vs).2.items a) xs T := by
    rw [items]
    exact inside.laid.of_changesOnly (more.changesOnly []) (fun u hu =>
      ⟨(held u hu).grows inside.more.grows, List.not_mem_nil⟩) fun u hu =>
        ⟨(inside.fresh u hu).1, List.not_mem_nil⟩
  refine ⟨inside.more.trans more, ?_, List.nodup_cons.2 ⟨fun hT => new.2 (inside.fresh _ hT).1,
    inside.nodup⟩, fun u hu => ?_, fun r hr => ?_⟩
  · have still : (∀ q', q = some q' → q'.items? = none) → Laid s (h'.addArray vs).2 F [q]
        [.array a] [.array xs] (.array a :: T) := by
      intro idle
      rw [← List.append_nil (.array a :: T)]
      refine .still ?_ (.array (Or.inr List.mem_cons_self) (inside'.shows.mono fun u =>
        Or.imp_right (List.mem_cons_of_mem _)) .nil) .nil
      cases q with
      | none => trivial
      | some q => exact idle q rfl
    cases q with
    | none => exact still nofun
    | some q =>
      cases hi : q.items? with
      | none => exact still fun q' e => by cases e; exact hi
      | some e =>
        rw [Option.bind_some, Slot.element?_of_items? hi] at inside'
        rw [← List.append_nil T]
        exact .array hi inside' .nil
  · rcases List.mem_cons.1 hu with rfl | hu
    · exact ⟨new.1, fun held => new.2 (held.grows inside.more.grows)⟩
    · exact ⟨(inside.fresh u hu).1.grows more.grows, (inside.fresh u hu).2⟩
  · have hr := (List.mem_cons.1 hr).resolve_left nofun
    exact (more.attached?_eq (inside.fresh _ hr).1).trans (inside.free r hr)

end Copied

/-- A fresh record of the type was added whose fields are copies, and show these trees. -/
structure Rebuilt (s : Schema) (t : TypeId) (F : Value → Prop) (before after : Heap)
    (r : RecordId) (es : Entries) (T : List Value) : Prop where
  /-- The record is there. -/
  new : after.Holds (.record r)
  /-- It was not there before. -/
  old : ¬ before.Holds (.record r)
  /-- It has no model attached. -/
  free : after.attached? r = none
  /-- It is no part of its own fields. -/
  out : .record r ∉ T
  /-- Its keys are those of the trees. -/
  keys : (after.fields r).keys = es.keys
  /-- The copies. -/
  inside : Copied s F before after ((after.fields r).keys.map (s.type t).slot?)
    (after.fields r).values (es.map Prod.snd) T

namespace Rebuilt

variable {s : Schema} {F : Value → Prop} {h h' : Heap} {q : Option Slot} {t : TypeId}
  {r : RecordId} {es : Entries} {T : List Value}

theorem recordOf {fs : List (String × Value)} (keys : fs.map Prod.fst = es.keys) (tidy : es.Tidy)
    (inside : Copied s F h h' (fs.map fun e => (s.type t).slot? e.1) (fs.map Prod.snd)
      (es.map Prod.snd) T) (held : ∀ u, F u → h.Holds u) :
    Rebuilt s t F h (h'.recordOf fs).2 (h'.recordOf fs).1 es T := by
  let r := (h'.recordOf fs).1
  have more : h'.Extends (h'.recordOf fs).2 := h'.extends_addRecord _
  have fresh : ¬ h'.Holds (.record r) := Nat.lt_irrefl _
  have there : ∀ x ∈ es.map Prod.snd, x.isUndefined = false := by
    intro x hx
    obtain ⟨e, he, rfl⟩ := List.mem_map.1 hx
    exact tidy.defined_mem e he
  have entries : ((h'.recordOf fs).2.fields r).entries = fs := by
    have fields : (h'.recordOf fs).2.fields r = .ofList fs :=
      (h'.fields_addRecord _ r).trans (if_pos rfl)
    rw [fields]
    exact Fields.entries_ofList (keys ▸ tidy.nodup) fun e he =>
      inside.laid.shows.defined there _ (List.mem_map.2 ⟨e, he, rfl⟩)
  refine ⟨Nat.lt_of_lt_of_eq (Nat.lt_succ_self _) (Array.size_push _).symm,
    fun old => fresh (old.grows inside.more.grows),
    (h'.attached?_addRecord _ r).trans (h'.attached?_of_size_le (Nat.le_refl _)),
    fun hT => fresh (inside.fresh _ hT).1, ?_, ?_⟩
  · unfold Fields.keys
    rw [entries, keys]
  · unfold Fields.keys Fields.values
    rw [entries, List.map_map]
    refine ⟨inside.more.trans more, ?_, inside.nodup, fun u hu => ?_, fun r' hr => ?_⟩
    · exact inside.laid.of_changesOnly (more.changesOnly []) (fun u hu =>
        ⟨(held u hu).grows inside.more.grows, List.not_mem_nil⟩) fun u hu =>
          ⟨(inside.fresh u hu).1, List.not_mem_nil⟩
    · exact ⟨(inside.fresh u hu).1.grows more.grows, (inside.fresh u hu).2⟩
    · exact (more.attached?_eq (inside.fresh _ hr).1).trans (inside.free r' hr)

/-- The record is a copy in any slot that knows its fields by the type. -/
theorem copied (b : Rebuilt s t F h h' r es T) (shape : q.bind (Slot.shape? s) = some t) :
    Copied s F h h' [q] [.record r] [.record es] (.record r :: T) := by
  refine ⟨b.inside.more, ?_, List.nodup_cons.2 ⟨b.out, b.inside.nodup⟩, fun u hu => ?_,
    fun r' hr => ?_⟩
  · cases q with
    | none => cases shape
    | some q =>
      cases hf : q.form? s with
      | none =>
        rw [← List.append_nil (.record r :: T)]
        refine .still hf (.record (Or.inr List.mem_cons_self) b.keys (b.inside.laid.shows.mono
          fun u => Or.imp_right (List.mem_cons_of_mem _)) .nil) .nil
      | some t' =>
        obtain rfl : t = t' := Option.some.inj (shape.symm.trans (Slot.shape?_of_form? hf))
        rw [← List.append_nil T]
        exact .record hf b.keys b.inside.laid .nil
  · rcases List.mem_cons.1 hu with rfl | hu
    · exact ⟨b.new, b.old⟩
    · exact b.inside.fresh u hu
  · rcases List.mem_cons.1 hr with e | hr
    · cases e
      exact b.free
    · exact b.inside.free r' hr

end Rebuilt

/-! ### Taking snapshots -/

section Taking

variable {s : Schema} {h : Heap} {P : Value → Prop} {c : Context} {st : State} {q : Option Slot}
  {vs : List Value} {xs : List Tree} {t : TypeId}

theorem each_copied (copy : Value → Action Value) (hP : ∀ u, P u → h.Holds u)
    (sh : h.Shows P vs xs) (hcopy : ∀ v ∈ vs, ∀ x ∈ xs, h.Shows P [v] [x] →
      ∀ st : State, h.Extends st.heap → ∃ T, Copied s (fun u => P u ∧ h.Free u) st.heap
        (copy v c st).2.heap [q] [(copy v c st).1] [x.cleaned s q] T)
    (ext : h.Extends st.heap) :
    ∃ T, Copied s (fun u => P u ∧ h.Free u) st.heap (each copy vs c st).2.heap
      ((each copy vs c st).1.map fun _ => q) (each copy vs c st).1 (Tree.cleanedItems s q xs) T := by
  induction vs generalizing xs st with
  | nil =>
    cases sh
    exact ⟨[], .nil⟩
  | cons v vs ih =>
    obtain - | ⟨x, xs⟩ := xs
    · cases sh
    · obtain ⟨first, others⟩ := sh.split
      obtain ⟨T, copied⟩ := hcopy v List.mem_cons_self x List.mem_cons_self first st ext
      obtain ⟨T', rest⟩ := ih others (fun v hv x hx =>
        hcopy v (List.mem_cons_of_mem _ hv) x (List.mem_cons_of_mem _ hx)) (ext.trans copied.more)
      exact ⟨T ++ T', copied.cons rest fun u hu => (hP u hu.1).grows ext.grows⟩

/-- The entries are copies, and show these trees by key. -/
structure Kept (s : Schema) (t : TypeId) (F : Value → Prop) (before : Heap) (es : Entries)
    (out : List (String × Value) × State) : Prop where
  /-- The keys. -/
  keys : out.1.map Prod.fst = es.keys
  /-- The copies. -/
  copied : ∃ T, Copied s F before out.2.heap (out.1.map fun e => (s.type t).slot? e.1)
    (out.1.map Prod.snd) (es.map Prod.snd) T

theorem Kept.cons {F : Value → Prop} {before : Heap} {es : Entries} {st : State} {key : String}
    {w : Value} {x : Tree} {T : List Value} {out : List (String × Value) × State}
    (kept : Kept s t F st.heap es out)
    (first : Copied s F before st.heap [q] [w] [x] T) (slot : (s.type t).slot? key = q)
    (held : ∀ u, F u → before.Holds u) :
    Kept s t F before ((key, x) :: es) ((key, w) :: out.1, out.2) :=
  ⟨congrArg (key :: ·) kept.keys,
    let ⟨_, rest⟩ := kept.copied
    ⟨_, (slot ▸ first).cons rest held⟩⟩

theorem entriesOf_kept {copy : Property → Value → Action Value} {fs : List (String × Value)}
    {es : Entries} (hP : ∀ u, P u → h.Holds u) (keys : fs.map Prod.fst = es.keys)
    (sh : h.Shows P (fs.map Prod.snd) (es.map Prod.snd))
    (known : ∀ e ∈ fs, isReserved e.1 = false → Known s h ((s.type t).slot? e.1) e.2)
    (hcopy : ∀ e ∈ fs, ∀ p, isReserved e.1 = false → (s.type t).property? e.1 = some p →
      ∀ x ∈ es.map Prod.snd, h.Shows P [e.2] [x] → ∀ st : State, h.Extends st.heap →
        ∃ T, Copied s (fun u => P u ∧ h.Free u) st.heap (copy p e.2 c st).2.heap [some p.slot]
          [(copy p e.2 c st).1] [x.cleaned s (some p.slot)] T)
    (ext : h.Extends st.heap) :
    Kept s t (fun u => P u ∧ h.Free u) st.heap (Tree.cleanedEntries s t es)
      (entriesOf copy (s.type t) fs c st) := by
  -- along the entries; a copy only adds cells, so the others are read as they were at the start
  induction fs generalizing es st with
  | nil =>
    obtain rfl : es = [] := List.map_eq_nil_iff.1 keys.symm
    exact ⟨rfl, [], .nil⟩
  | cons f fs ih =>
    obtain ⟨key, v⟩ := f
    obtain - | ⟨⟨key', x⟩, es⟩ := es
    · cases keys
    · obtain ⟨rfl, keys'⟩ : key = key' ∧ fs.map Prod.fst = Entries.keys es := List.cons.inj keys
      obtain ⟨first, others⟩ := sh.split
      have rest : ∀ st : State, h.Extends st.heap → Kept s t (fun u => P u ∧ h.Free u) st.heap
          (Tree.cleanedEntries s t es) (entriesOf copy (s.type t) fs c st) := fun _ =>
        ih keys' others (fun e he => known e (List.mem_cons_of_mem _ he))
          fun e he p hr hp x hx => hcopy e (List.mem_cons_of_mem _ he) p hr hp x
            (List.mem_cons_of_mem _ hx)
      have held : ∀ u, P u ∧ h.Free u → st.heap.Holds u := fun u hu =>
        (hP u hu.1).grows ext.grows
      rw [Tree.cleanedEntries]
      unfold ModelType.keeps entriesOf
      cases hr : isReserved key with
      | true => exact rest st ext
      | false =>
        have loose := known _ List.mem_cons_self hr
        rw [ModelType.slot?_of_data hr] at loose ⊢
        have slot := ModelType.slot?_of_data (t := s.type t) hr
        rw [if_neg Bool.false_ne_true]
        cases hp : (s.type t).property? key with
        | some p =>
          rw [hp] at slot
          cases persisted : p.isPersisted with
          | false =>
            dsimp only
            rw [if_neg (by simp [persisted]), persisted, if_neg Bool.false_ne_true]
            exact rest st ext
          | true =>
            obtain ⟨T, copied⟩ :=
              hcopy _ List.mem_cons_self p hr hp x List.mem_cons_self first st ext
            dsimp only
            rw [if_pos (by simp [persisted]), persisted, if_pos rfl]
            exact (rest _ (ext.trans copied.more)).cons copied slot held
        | none =>
          cases additional : (s.type t).allowsAdditional with
          | false =>
            dsimp only
            rw [if_neg (by simp), if_neg Bool.false_ne_true]
            exact rest (noteKey key c st).2 ext
          | true =>
            dsimp only
            rw [if_pos (by simp), if_pos rfl, Option.map_none, Tree.cleaned_none]
            rw [hp] at loose slot
            have free := (Known.shows_free first (List.forall_mem_singleton.2 loose)).of_changesOnly
              (ext.changesOnly []) fun u hu => ⟨hP u hu.1, List.not_mem_nil⟩
            exact (rest st ext).cons (.shared (q := none) trivial free) slot held

theorem dataOf_rebuilt (copy : Property → Value → Action Value) {r : RecordId} {es : Entries}
    (hc : c.schema = s) (hstr : (s.type t).isStructured = true) (hP : ∀ u, P u → h.Holds u)
    (held : h.Holds (.record r)) (keys : (h.fields r).keys = es.keys)
    (sh : h.Shows P (h.fields r).values (es.map Prod.snd))
    (known : ∀ key, isReserved key = false →
      Known s h ((s.type t).slot? key) ((h.fields r).get key))
    (hcopy : ∀ v x p, x ∈ es.map Prod.snd → h.Shows P [v] [x] → Known s h (some p.slot) v →
      ∀ st : State, h.Extends st.heap → ∃ T, Copied s (fun u => P u ∧ h.Free u) st.heap
        (copy p v c st).2.heap [some p.slot] [(copy p v c st).1] [x.cleaned s (some p.slot)] T)
    (ext : h.Extends st.heap) :
    ∃ r' T, (dataOf copy t (.record r) c st).1 = .record r' ∧
      Rebuilt s t (fun u => P u ∧ h.Free u) st.heap (dataOf copy t (.record r) c st).2.heap r'
        (Tree.cleanedEntries s t es) T := by
  have fields : st.heap.fields r = h.fields r := (ext.changesOnly []).fields r held List.not_mem_nil
  have found : ∀ e ∈ (h.fields r).entries, isReserved e.1 = false →
      Known s h ((s.type t).slot? e.1) e.2 := by
    rintro ⟨key, v⟩ he hr
    exact Fields.get_of_mem he ▸ known key hr
  have kept : Kept s t (fun u => P u ∧ h.Free u) st.heap (Tree.cleanedEntries s t es)
      (entriesOf copy (s.type t) (h.fields r).entries c st) := by
    refine entriesOf_kept hP keys sh found (fun e he p hr hp x hx shown => ?_) ext
    have slot := found e he hr
    rw [ModelType.slot?_of_data hr, hp] at slot
    exact hcopy e.2 x p hx shown slot
  rw [dataOf_record, hc, hstr, if_pos rfl, fields]
  obtain ⟨T, copied⟩ := kept.copied
  exact ⟨_, T, rfl, .recordOf kept.keys (Tree.tidy_cleanedEntries (sh.tidy keys)) copied
    fun u hu => (hP u hu.1).grows ext.grows⟩

/-- The slot of a property knows the fields of a record by the type that it declares, if that has
properties. -/
theorem shape?_eq (s : Schema) (p : Option Property) :
    (p.map Property.slot).bind (Slot.shape? s) =
      (p.bind (·.type.model?)).filter fun t => (s.type t).isStructured := by
  cases p with
  | none => rfl
  | some p =>
    rw [Option.map_some, Option.bind_some, Option.bind_some, Slot.shape?]
    unfold Property.slot
    cases p.type <;> rfl

/-- A record in a slot that knows its fields by no type has none that go through slots. -/
theorem still_of_shape {es : Entries} (shape : q.bind (Slot.shape? s) = none) :
    (Tree.record es).Still s q := by
  cases q with
  | none => trivial
  | some q =>
    show q.form? s = none
    cases hf : q.form? s with
    | none => rfl
    | some t => exact nomatch (Slot.shape?_of_form? hf).symm.trans shape

theorem known?_of_free (ext : h.Extends st.heap) {p : Option Property} {r : RecordId}
    (held : h.Holds (.record r)) (free : h.attached? r = none) :
    known? st.heap c.roots p (.record r) = (p.bind (·.type.model?)).map (·, .record r) := by
  simp only [known?, Heap.wrapper?, Heap.attachedIn?]
  rw [ext.attached?_eq held, free]
  rfl

/-- A record is known by the type that is declared if a model attached to it is an instance of just
that. -/
theorem known?_of_ties (ext : h.Extends st.heap) {p : Option Property} {r : RecordId}
    (held : h.Holds (.record r)) (ties : h.Ties t r) (declared : p.bind (·.type.model?) = some t) :
    known? st.heap c.roots p (.record r) = some (t, .record r) := by
  cases ha : h.attached? r with
  | none => rw [known?_of_free ext held ha, declared, Option.map_some]
  | some m =>
    obtain ⟨hm, data, type⟩ := ties m ha
    have here := (ext.attached?_eq held).trans ha
    have data' : st.heap.data m = .record r := (ext.grows.data_eq hm).trans data
    obtain ⟨t', ht, known⟩ := known?_of_attached declared here data' c.roots
    rw [known, ht.elim id fun e => e.trans ((ext.grows.type_eq hm).trans type)]

/-- What is known by its slot is copied. -/
theorem within_copied (hc : c.schema = s) (hP : ∀ u, P u → h.Holds u) (depth : Nat)
    (p : Option Property) {v : Value} {x : Tree} (le : x.depth ≤ depth) (sh : h.Shows P [v] [x])
    (known : Known s h (p.map Property.slot) v) (ext : h.Extends st.heap) :
    ∃ T, Copied s (fun u => P u ∧ h.Free u) st.heap (within depth p v c st).2.heap
      [p.map Property.slot] [(within depth p v c st).1] [x.cleaned s (p.map Property.slot)] T := by
  -- the depth is that of the tree, so no part is left uncopied at the bottom
  induction depth generalizing p v x st with
  | zero => exact absurd x.depth_pos (by omega)
  | succ depth ih =>
    have same : ∀ {vs : List Value} {xs : List Tree}, h.Shows (fun u => P u ∧ h.Free u) vs xs →
        st.heap.Shows (fun u => P u ∧ h.Free u) vs xs := fun sh =>
      sh.of_changesOnly (ext.changesOnly []) fun u hu => ⟨hP u hu.1, List.not_mem_nil⟩
    cases sh with
    | leaf plain _ =>
      have here : within (depth + 1) p v c st = (v, st) := by
        cases v <;> first | rfl | cases plain
      rw [here]
      refine ⟨[], .shared ?_ (.leaf plain .nil)⟩
      cases p <;> trivial
    | @array a _ ys _ mem inside _ =>
      rw [Tree.depth] at le
      have slot := Property.bind_element? p
      cases known with
      | scalar plain => cases plain
      | array elements =>
        rw [within_array ext (hP _ mem), Tree.cleaned]
        obtain ⟨T, copied⟩ := each_copied (within depth (p.bind (·.elementProperty?))) hP
          inside (fun w hw y hy shown st ext => ih _
            (by have := Tree.depth_le_depths hy; omega) shown (slot ▸ elements w hw) ext) ext
        rw [← slot] at copied
        exact ⟨_, .array copied fun u hu => (hP u hu.1).grows ext.grows⟩
    | @record r _ es _ mem keys inside _ =>
      rw [Tree.depth, Tree.depthOf_eq] at le
      rw [within_record]
      cases known with
      | scalar plain => cases plain
      | loose shape loose fields =>
        -- no type with properties is known for the record, so it stands for itself
        have here : Known s h none (.record r) := .loose rfl loose fields
        have shown : h.Shows (fun u => P u ∧ h.Free u) [.record r] [.record es] :=
          Known.shows_free (.record mem keys inside .nil) (List.forall_mem_singleton.2 here)
        have kept : (known? st.heap c.roots p (.record r)).elim (.record r, st) (fun known =>
            dataOf (fun p => within depth (some p)) known.1 known.2 c st) = (.record r, st) := by
          rw [shape?_eq] at shape
          rw [known?_of_free ext (hP _ mem) loose]
          cases hp : p.bind (·.type.model?) with
          | none => rfl
          | some t =>
            rw [hp, Option.filter_eq_none_iff] at shape
            rw [Option.map_some, Option.elim_some, dataOf_record, hc, if_neg (shape t rfl)]
        rw [kept, Tree.cleaned, shape]
        refine ⟨[], .shared (still_of_shape shape) (same shown)⟩
      | @record _ t _ shape ties fields =>
        obtain ⟨declared, hstr⟩ := Option.filter_eq_some_iff.1 ((shape?_eq s p).symm.trans shape)
        rw [known?_of_ties ext (hP _ mem) ties declared, Option.elim_some]
        obtain ⟨r', T, e, rebuilt⟩ := dataOf_rebuilt (fun p => within depth (some p)) hc hstr hP
          (hP _ mem) keys inside fields
          (fun w y p hy shown known st ext => ih (some p)
            (by have := Tree.depth_le_depths hy; omega) shown known ext) ext
        rw [e, Tree.cleaned, shape]
        exact ⟨_, rebuilt.copied shape⟩

/-- A model whose fields are known by its type is copied into a fresh record. -/
theorem take_rebuilt {roots : List Value} {ds : Option (List Diagnostic)} {m : ModelId}
    {r : RecordId} {es : Entries} (hstr : (s.type t).isStructured = true)
    (hP : ∀ u, P u → h.Holds u) (type : h.type m = t) (data : h.data m = .record r)
    (held : h.Holds (.record r)) (keys : (h.fields r).keys = es.keys)
    (sh : h.Shows P (h.fields r).values (es.map Prod.snd))
    (known : ∀ key, isReserved key = false →
      Known s h ((s.type t).slot? key) ((h.fields r).get key)) :
    ∃ r' T, (take s roots h ds (.model m)).1 = .record r' ∧
      Rebuilt s t (fun u => P u ∧ h.Free u) h (take s roots h ds (.model m)).2.heap r'
        (Tree.cleanedEntries s t es) T := by
  have run : take s roots h ds (.model m) = dataOf (fun p => within h.size (some p)) t (.record r)
      ⟨s, roots⟩ ⟨h, ds⟩ := by
    rw [← type, ← data]
    rfl
  have whole : h.Shows (fun u => P u ∨ u = .record r) [.record r] [.record es] :=
    .record (Or.inr rfl) keys (sh.mono fun _ => Or.inl) .nil
  have le := whole.depth_le fun u hu => hu.elim (hP u) fun e => e ▸ held
  rw [Tree.depth, Tree.depthOf_eq] at le
  rw [run]
  exact dataOf_rebuilt (fun p => within h.size (some p)) rfl hstr hP held keys sh known
    (fun v x p hx shown known st ext => within_copied (c := ⟨s, roots⟩) rfl hP h.size (some p)
      (by have := Tree.depth_le_depths hx; omega) shown known ext) (.refl h)

end Taking

end Snapshot

end Overlay
