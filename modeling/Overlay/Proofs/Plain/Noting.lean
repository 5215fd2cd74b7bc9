import Overlay.Proofs.Plain.Admitted
import Overlay.Proofs.Plain.Cleaning

/-!
# Keys that are not recognised

Storing a tree records the keys of its records that are not recognised, among other errors, and a
snapshot of what was stored notes those that are left.  Where all types wrap, and every property
persists under its own name and declares elements only for arrays, both are the same.

* `Tree.noted` : what a snapshot notes of a tree in a slot;
* `Tree.admitted_noted` : what becomes of the entries of a record, one by one;
* `Tree.stored_noted`, `Tree.constructed_noted` : storing records what a snapshot notes.
-/

namespace Overlay

/-- The error reports a key that is not recognised. -/
def Error.isUnrecognized : Error → Bool
  | .unrecognizedKey _ => true
  | _ => false

/-- The keys that a verdict reports as not recognised. -/
def Verdict.unrecognized {α : Type} (V : Verdict α) : List Error :=
  V.signalled.filter Error.isUnrecognized

/-- Elements are declared for arrays only. -/
def DataType.Lists : DataType → List DataType → Prop
  | _, [] => True
  | t, u :: us => t = .builtin .array ∧ u.Lists us

instance : (t : DataType) → (us : List DataType) → Decidable (t.Lists us)
  | _, [] => .isTrue trivial
  | t, u :: us =>
    have := instDecidableLists u us
    inferInstanceAs (Decidable (t = .builtin .array ∧ u.Lists us))

/-- All types wrap the standard way and run nothing of their own, and every property persists under
its own name and declares elements for arrays only. -/
structure Schema.Uniform (s : Schema) : Prop where
  /-- It is built without hooks. -/
  built : s.Built
  /-- Nothing runs on new instances. -/
  init : ∀ t, (s.type t).init = none
  /-- Nothing runs in coercion. -/
  coerce : ∀ t, (s.type t).coerce = none
  /-- Wrapping is standard. -/
  wrap : ∀ t, (s.type t).wrap = .standard
  /-- Properties persist. -/
  persists : ∀ {t key p}, (s.type t).property? key = some p → p.isPersisted = true
  /-- They are stored under their names. -/
  named : ∀ {t key p}, (s.type t).property? key = some p → p.storageKey = p.name
  /-- They declare elements for arrays only. -/
  lists : ∀ {t key p}, (s.type t).property? key = some p → p.type.Lists p.elements

namespace Schema.Uniform

variable {s : Schema} (u : s.Uniform) {t : TypeId} {key : String} {p : Property}
include u

theorem wraps : (s.type t).wraps = true := by
  unfold ModelType.wraps
  rw [u.wrap]
  rfl

theorem storageKey_eq (hp : (s.type t).property? key = some p) : p.storageKey = key :=
  (u.built.soundAt t).storageKey_eq hp (u.named hp)

theorem regular : s.Regular where
  built := u.built
  free := fun t => ⟨u.init t, u.coerce t, Or.inl (u.wrap t)⟩
  keyed := fun _ => ModelType.wellKeyed_of_named u.named

theorem form?_eq (q : Slot) : q.form? s = q.shape? s := by
  unfold Slot.form? Slot.shape?
  split
  · rw [u.wraps, Bool.true_and]
  · rfl

end Schema.Uniform

/-- It is enough to look at the types that there are, and at all properties that their layers
list. -/
theorem Schema.Built.uniform {s : Schema} (h : s.Built)
    (listed : ∀ t ∈ s.models.toList, (t.init = none ∧ t.coerce = none ∧ t.wrap = .standard) ∧
      ∀ e ∈ t.properties.layers.flatMap (·.entries),
        e.2.isPersisted = true ∧ e.2.storageKey = e.2.name ∧ e.2.type.Lists e.2.elements) :
    s.Uniform := by
  have all := s.forall_type (P := fun t => (t.init = none ∧ t.coerce = none ∧ t.wrap = .standard) ∧
    ∀ e ∈ t.properties.layers.flatMap (·.entries),
      e.2.isPersisted = true ∧ e.2.storageKey = e.2.name ∧ e.2.type.Lists e.2.elements) (by decide)
    listed
  have found : ∀ {t key p}, (s.type t).property? key = some p →
      p.isPersisted = true ∧ p.storageKey = p.name ∧ p.type.Lists p.elements := by
    intro t key p hp
    obtain ⟨layer, hl, k, he⟩ := PropertyLayers.lists_of_get? hp
    exact (all t).2 (k, p) (List.mem_flatMap.2 ⟨layer, hl, he⟩)
  exact ⟨h, fun t => (all t).1.1, fun t => (all t).1.2.1, fun t => (all t).1.2.2,
    fun hp => (found hp).1, fun hp => (found hp).2.1, fun hp => (found hp).2.2⟩

/-- The slot declares elements for arrays only. -/
def Slot.Lists (q : Slot) : Prop := q.type.Lists q.elements

theorem Slot.Lists.items?_eq {q : Slot} (hq : q.Lists) : q.items? = q.element? := by
  unfold items?
  split
  · rfl
  · rename_i other
    unfold element?
    unfold Lists at hq
    generalize q.elements = us at hq
    cases us with
    | nil => rfl
    | cons u us => exact absurd hq.1 other

theorem Slot.Lists.element {q e : Slot} (hq : q.Lists) (he : q.element? = some e) : e.Lists := by
  unfold element? at he
  unfold Lists at hq
  generalize q.elements = us at hq he
  cases us with
  | nil => cases he
  | cons u us =>
    cases he
    exact hq.2

namespace Tree

mutual
/-- The keys that a snapshot notes in a tree in a slot. -/
def noted (s : Schema) (q : Option Slot) : Tree → List Error
  | leaf _ => []
  | array xs => notedItems s (q.bind Slot.element?) xs
  | record es =>
    match q.bind (Slot.shape? s) with
    | some t => notedEntries s t es
    | none => []
/-- Those that it notes in elements. -/
def notedItems (s : Schema) (e : Option Slot) : List Tree → List Error
  | [] => []
  | x :: xs => noted s e x ++ notedItems s e xs
/-- Those that it notes in the fields of a record of the type. -/
def notedEntries (s : Schema) (t : TypeId) : Entries → List Error
  | [] => []
  | (key, x) :: rest =>
    if isReserved key then notedEntries s t rest
    else
      match (s.type t).property? key with
      | some p =>
        if p.isPersisted then noted s (some p.slot) x ++ notedEntries s t rest
        else notedEntries s t rest
      | none =>
        if (s.type t).allowsAdditional then notedEntries s t rest
        else .unrecognizedKey key :: notedEntries s t rest
end

end Tree

/-! ### Verdicts -/

namespace Verdict

variable {α β : Type} {V : Verdict α} {next : α → Verdict β} {b : β}

theorem bind_eq_ok (h : (V >>= next).result = .ok b) : ∃ a, V.result = .ok a ∧
    (next a).result = .ok b ∧ (V >>= next).signalled = V.signalled ++ (next a).signalled := by
  cases hV : V.result with
  | error e =>
    rw [bind_of_error hV] at h
    cases h
  | ok a =>
    rw [bind_of_ok hV] at h ⊢
    exact ⟨a, rfl, h, rfl⟩

/-- The verdict on a tree reports no keys, and leaves the tree as it is or gives a leaf. -/
structure Idles (V : Verdict Tree) (x : Tree) : Prop where
  /-- It reports no keys. -/
  quiet : V.unrecognized = []
  /-- What comes of the tree. -/
  same : ∀ y, V.result = .ok y → y = x ∨ y.isLeaf = true

namespace Idles

variable {x y : Tree}

theorem pure_self : (pure x : Verdict Tree).Idles x :=
  ⟨rfl, fun _ h => Or.inl (Except.ok.inj h).symm⟩

theorem pure_leaf (hy : y.isLeaf = true) : (pure y : Verdict Tree).Idles x :=
  ⟨rfl, fun _ h => Or.inr (Except.ok.inj h ▸ hy)⟩

theorem raise {e : Error} : (Verdict.raise e).Idles x := ⟨rfl, nofun⟩

theorem invalid {name : Option String} {z : Tree} : (Verdict.invalid name z).Idles x :=
  ⟨rfl, fun _ h => Or.inr (Except.ok.inj h ▸ rfl)⟩

end Idles

end Verdict

/-- What is left of an entry when a tree is stored for it: nothing if this is undefined. -/
def Entries.entry (key : String) (y : Tree) : Entries :=
  if y.isUndefined then [] else [(key, y)]

theorem Entries.keys_entry (key : String) (y : Tree) :
    (Entries.entry key y).keys.Sublist [key] := by
  unfold Entries.entry
  split
  · exact List.nil_sublist _
  · exact .refl _

theorem Entries.nodup_entry {key : String} {x : Tree} {done rest : Entries}
    (nodup : (Entries.keys (done ++ (key, x) :: rest)).Nodup) (y : Tree) :
    (Entries.keys (done ++ Entries.entry key y ++ rest)).Nodup := by
  have left := Entries.keys_entry key y
  unfold Entries.keys at nodup left ⊢
  rw [List.map_append, List.map_cons] at nodup
  rw [List.map_append, List.map_append, List.append_assoc]
  exact nodup.sublist ((List.Sublist.refl _).append (left.append (.refl _)))

namespace Tree

open Verdict

variable {s : Schema} {strict : Bool} {q : Slot} {name : Option String} {b : Builtin} {t : TypeId}
  {x y : Tree} {key : String}

theorem scalar_idles : (scalar strict name b x).Idles x := by
  unfold scalar
  split
  · split
    · exact .pure_self
    · split
      · exact .invalid
      · split
        · exact .pure_leaf rfl
        · exact .invalid
  · exact .invalid

theorem integer_idles : (integer strict name x).Idles x := by
  have number : (scalar strict name .number x).Idles x := scalar_idles
  unfold integer
  cases hV : (scalar strict name .number x).result with
  | error e =>
    rw [bind_of_error hV]
    exact ⟨number.quiet, nofun⟩
  | ok y =>
    have quiet : ∀ {W : Verdict Tree}, W.Idles x →
        (⟨(scalar strict name .number x).signalled ++ W.signalled, W.result⟩ : Verdict Tree).Idles
          x := by
      intro W w
      refine ⟨?_, w.same⟩
      unfold unrecognized
      rw [List.filter_append]
      exact List.append_eq_nil_iff.2 ⟨number.quiet, w.quiet⟩
    have kept : (pure y : Verdict Tree).Idles x :=
      ⟨rfl, fun z hz => Except.ok.inj hz ▸ number.same y hV⟩
    rw [bind_of_ok hV]
    refine quiet ?_
    split
    · split
      · exact kept
      · exact .invalid
    · exact kept

theorem bare_idles : (bare s t name x).Idles x := by
  unfold bare
  split
  · exact .pure_self
  · split
    · exact .raise
    · split
      · exact .invalid
      · split
        · exact .pure_self
        · exact .raise

theorem idle_idles : (idle s strict q x).Idles x := by
  unfold idle
  split
  · exact .pure_self
  · split
    · exact .pure_self
    · exact .invalid
  · exact integer_idles
  · exact scalar_idles
  · exact bare_idles
  · exact .pure_self

/-! ### Storing -/

@[simp] theorem noted_none (x : Tree) : noted s none x = [] := by
  induction x using Tree.induct with
  | leaf v => rfl
  | record es ih => rfl
  | array xs ih =>
    rw [noted, Option.bind_none]
    induction xs with
    | nil => rfl
    | cons x xs ihs =>
      rw [notedItems, ih x List.mem_cons_self, ihs fun y hy => ih y (List.mem_cons_of_mem _ hy)]
      rfl

theorem noted_of_still (u : s.Uniform) (hq : q.Lists) (still : x.Still s (some q)) :
    noted s (some q) x = [] := by
  cases x with
  | leaf v => rfl
  | array xs =>
    have none : q.items? = none := still
    rw [hq.items?_eq] at none
    rw [noted, Option.bind_some, none]
    exact noted_none (array xs)
  | record es =>
    have none : q.form? s = none := still
    rw [u.form?_eq] at none
    rw [noted, Option.bind_some, none]

theorem idle_noted (u : s.Uniform) (hq : q.Lists) (still : x.Still s (some q))
    (h : (idle s strict q x).result = .ok y) :
    noted s (some q) y = (idle s strict q x).unrecognized := by
  have idles : (idle s strict q x).Idles x := idle_idles
  rw [idles.quiet]
  rcases idles.same y h with rfl | leaf
  · exact noted_of_still u hq still
  · cases y with
    | leaf v => rfl
    | _ => cases leaf

theorem notedEntries_entry (u : s.Uniform) (hr : isReserved key = false) {p : Property}
    (hp : (s.type t).property? key = some p) (y : Tree) (rest : Entries) :
    notedEntries s t (Entries.entry key y ++ rest) =
      noted s (some p.slot) y ++ notedEntries s t rest := by
  unfold Entries.entry
  split
  · rename_i undefined
    rw [isUndefined_iff.1 undefined]
    rfl
  · rw [List.singleton_append, notedEntries, hr, hp, if_neg Bool.false_ne_true]
    dsimp only
    rw [u.persists hp, if_pos rfl]

/-- A stored tree in place of the entry that it came from. -/
theorem put_reveal_append {done rest : Entries} {written : List String}
    (nodup : (Entries.keys (done ++ (key, x) :: rest)).Nodup) :
    Entries.put key y (Entries.reveal written key y (done ++ (key, x) :: rest)) =
      done ++ (Entries.entry key y ++ rest) := by
  have keys : key ∉ Entries.keys done ∧ key ∉ Entries.keys rest := by
    unfold Entries.keys at nodup ⊢
    rw [List.map_append, List.map_cons] at nodup
    obtain ⟨-, tail, apart⟩ := List.nodup_append.1 nodup
    exact ⟨fun hk => apart key hk key List.mem_cons_self rfl, (List.nodup_cons.1 tail).1⟩
  have others : ∀ {es : Entries}, key ∉ es.keys → ∀ e ∈ es, e.1 ≠ key := fun hk e he h =>
    hk (h ▸ List.mem_map.2 ⟨e, he, rfl⟩)
  have revealed : ∃ z, Entries.reveal written key y (done ++ (key, x) :: rest) =
      done ++ (key, z) :: rest := by
    unfold Entries.reveal
    split
    · exact ⟨x, rfl⟩
    · refine ⟨y, ?_⟩
      unfold Entries.replace
      rw [List.map_append, List.map_cons, if_pos rfl]
      congr 1
      · exact (List.map_congr_left fun e he => if_neg (others keys.1 e he)).trans (List.map_id' _)
      · congr 1
        exact (List.map_congr_left fun e he => if_neg (others keys.2 e he)).trans (List.map_id' _)
  obtain ⟨z, hz⟩ := revealed
  rw [hz]
  unfold Entries.put Entries.entry
  split
  · rw [List.filter_append, List.filter_cons_of_neg (by simp)]
    congr 1
    · exact List.filter_eq_self.2 fun e he => by simp [others keys.1 e he]
    · exact List.filter_eq_self.2 fun e he => by simp [others keys.2 e he]
  · have overwritten : ∀ {es : Entries}, (∀ e ∈ es, e.1 ≠ key) →
        Entries.overwrite key y (es ++ (key, z) :: rest) = es ++ (key, y) :: rest := by
      intro es
      induction es with
      | nil =>
        intro _
        rw [List.nil_append, Entries.overwrite, if_pos rfl]
        rfl
      | cons e es ih =>
        intro h
        rw [List.cons_append, Entries.overwrite, if_neg (h e List.mem_cons_self),
          ih fun e he => h e (List.mem_cons_of_mem _ he)]
        rfl
    exact overwritten (others keys.1)

/-- What becomes of the entries of a record one by one: those that were done before stay as they
are, and of the others a snapshot notes the keys that were reported. -/
theorem admitted_noted (u : s.Uniform) (done : Entries) {pending out : Entries}
    {written : List String}
    (stores : ∀ e ∈ pending, ∀ (q : Slot) (y : Tree), q.Lists →
      (stored s strict q e.2).result = .ok y →
        noted s (some q) y = (stored s strict q e.2).unrecognized)
    (nodup : (Entries.keys (done ++ pending)).Nodup)
    (h : (admitted s strict t pending written (done ++ pending)).result = .ok out) :
    ∃ rest, out = done ++ rest ∧ notedEntries s t rest =
      (admitted s strict t pending written (done ++ pending)).unrecognized := by
  induction pending generalizing done written with
  | nil =>
    rw [admitted] at h ⊢
    exact ⟨[], (Except.ok.inj h).symm, rfl⟩
  | cons e pending ih =>
    obtain ⟨key, x⟩ := e
    have ih := fun done' written' => @ih done' written' fun e he =>
      stores e (List.mem_cons_of_mem _ he)
    have shift : done ++ (key, x) :: pending = (done ++ [(key, x)]) ++ pending := by simp
    -- the entry stays, and nothing is noted of it but perhaps its key
    have kept : ∀ (V : Verdict Entries) (es : List Error),
        (admitted s strict t pending written (done ++ (key, x) :: pending)).result = .ok out →
        V.unrecognized = es ++
          (admitted s strict t pending written (done ++ (key, x) :: pending)).unrecognized →
        (∀ rest, notedEntries s t ((key, x) :: rest) = es ++ notedEntries s t rest) →
        ∃ rest, out = done ++ rest ∧ notedEntries s t rest = V.unrecognized := by
      intro V es h same passes
      rw [shift] at h same
      obtain ⟨rest, hout, noted⟩ := ih _ _ (shift ▸ nodup) h
      refine ⟨(key, x) :: rest, by rw [hout]; simp, ?_⟩
      rw [passes, noted, same]
    rw [admitted] at h ⊢
    cases hr : isReserved key with
    | true =>
      rw [hr] at h
      exact kept _ [] h rfl fun rest => by rw [notedEntries, hr]; rfl
    | false =>
      rw [hr] at h
      rw [if_neg Bool.false_ne_true] at h ⊢
      cases hp : (s.type t).property? key with
      | none =>
        rw [hp] at h
        dsimp only at h ⊢
        cases additional : (s.type t).allowsAdditional with
        | true =>
          rw [additional] at h
          exact kept _ [] h rfl fun rest => by rw [notedEntries, hr, hp, additional]; rfl
        | false =>
          rw [additional] at h
          obtain ⟨a, -, h, -⟩ := bind_eq_ok h
          exact kept _ [.unrecognizedKey key] h rfl fun rest => by
            rw [notedEntries, hr, hp, additional]
            rfl
      | some p =>
        rw [hp] at h
        dsimp only at h ⊢
        obtain ⟨y, hy, h, signalled⟩ := bind_eq_ok h
        rw [u.storageKey_eq hp, put_reveal_append nodup] at h signalled
        rw [← List.append_assoc] at h signalled
        obtain ⟨rest, hout, noted⟩ := ih _ _ (Entries.nodup_entry nodup y) h
        refine ⟨Entries.entry key y ++ rest, by rw [hout, List.append_assoc], ?_⟩
        rw [notedEntries_entry u hr hp, noted,
          stores (key, x) List.mem_cons_self p.slot y (u.lists hp) hy]
        unfold unrecognized
        rw [← List.filter_append, ← signalled, u.storageKey_eq hp]

theorem storedItems_noted {e : Slot} {xs ys : List Tree}
    (stores : ∀ x ∈ xs, ∀ y, (stored s strict e x).result = .ok y →
      noted s (some e) y = (stored s strict e x).unrecognized)
    (h : (storedItems s strict e xs).result = .ok ys) :
    notedItems s (some e) ys = (storedItems s strict e xs).unrecognized := by
  induction xs generalizing ys with
  | nil =>
    rw [storedItems] at h ⊢
    obtain rfl := Except.ok.inj h
    rfl
  | cons x xs ih =>
    rw [storedItems] at h ⊢
    obtain ⟨y, hy, h, signalled⟩ := bind_eq_ok h
    obtain ⟨ys', hys, rest, signalled'⟩ := bind_eq_ok h
    obtain rfl := Except.ok.inj rest
    unfold unrecognized
    rw [signalled, signalled', pure_signalled, List.append_nil, List.filter_append, notedItems,
      stores x List.mem_cons_self y hy, ih (fun x hx => stores x (List.mem_cons_of_mem _ hx)) hys]
    rfl

/-- Storing a tree reports the keys that a snapshot of what is stored notes. -/
theorem stored_noted (u : s.Uniform) (hx : x.Proper) (hq : q.Lists)
    (h : (stored s strict q x).result = .ok y) :
    noted s (some q) y = (stored s strict q x).unrecognized := by
  induction hx generalizing q y with
  | leaf v =>
    rw [stored] at h ⊢
    exact idle_noted u hq trivial h
  | @array xs items ih =>
    clear items
    cases hi : q.items? with
    | none =>
      rw [stored, hi] at h ⊢
      exact idle_noted u hq hi h
    | some e =>
      rw [stored, hi] at h ⊢
      obtain ⟨ys, hys, rest, signalled⟩ := bind_eq_ok h
      obtain rfl := Except.ok.inj rest
      have element : q.element? = some e := hq.items?_eq ▸ hi
      have he := hq.element element
      unfold unrecognized
      rw [signalled, pure_signalled, List.append_nil, noted, Option.bind_some, element,
        storedItems_noted (fun x hx y hy => ih x hx he hy) hys]
      rfl
  | @record es tidy _ ih =>
    cases hf : q.form? s with
    | none =>
      rw [stored, hf] at h ⊢
      exact idle_noted u hq hf h
    | some t =>
      rw [stored, hf] at h ⊢
      dsimp only at h ⊢
      split at h
      · rename_i allowed
        rw [if_pos allowed]
        obtain ⟨out, hout, rest, signalled⟩ := bind_eq_ok h
        obtain rfl := Except.ok.inj rest
        obtain ⟨rest, e, same⟩ := admitted_noted u []
          (fun e he q y hq hy => ih e he hq hy) tidy.nodup hout
        unfold unrecognized
        rw [noted, Option.bind_some, Slot.shape?_of_form? hf, signalled, pure_signalled,
          List.append_nil]
        dsimp only
        rw [e, List.nil_append, same]
        rfl
      · cases h

/-- So does constructing a model of a type with properties. -/
theorem constructed_noted (u : s.Uniform) (hx : x.Proper) (hstr : (s.type t).isStructured = true)
    {fields : Entries} (h : (constructed s strict name t x).result = .ok (record fields)) :
    notedEntries s t fields = (constructed s strict name t x).unrecognized := by
  unfold constructed at h ⊢
  cases allowed : (s.type t).allowsInstances with
  | false =>
    rw [allowed] at h
    cases h
  | true =>
    rw [allowed, hstr] at h
    have empty : ∀ {V : Verdict Tree}, V.unrecognized = [] → V.result = .ok (record []) →
        V.result = .ok (record fields) → notedEntries s t fields = V.unrecognized := by
      intro V quiet hV h
      cases Except.ok.inj (hV.symm.trans h)
      rw [quiet, notedEntries]
    rw [hstr]
    have bare : (if x.isNothing then pure (record [])
        else Verdict.invalid name x >>= fun _ => pure (record [])).result =
          .ok (record fields) →
        notedEntries s t fields = (if x.isNothing then pure (record [])
          else Verdict.invalid name x >>= fun _ => pure (record [])).unrecognized := by
      intro h
      split at h
      · rename_i nothing
        rw [if_pos nothing]
        exact empty rfl rfl h
      · rename_i something
        rw [if_neg something]
        exact empty rfl rfl h
    cases hx with
    | record tidy parts =>
      obtain ⟨out, hout, rest, signalled⟩ := bind_eq_ok h
      cases Except.ok.inj rest
      obtain ⟨rest, e, same⟩ := admitted_noted u []
        (fun e he q y hq hy => stored_noted u (parts e he) hq hy) tidy.nodup hout
      unfold unrecognized
      rw [e, List.nil_append, same]
      exact (congrArg (List.filter Error.isUnrecognized)
        (signalled.trans (List.append_nil _))).symm
    | leaf v => exact bare h
    | array items => exact bare h

end Tree

end Overlay
