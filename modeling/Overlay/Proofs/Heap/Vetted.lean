import Overlay.Proofs.Heap.Shows
import Overlay.Proofs.Heap.Typing
import Overlay.Proofs.Plain.Collecting

/-!
# Data that have been checked

What was stored without an objection has been checked through and through: each value is of its
type, and a record under a type with properties has no other keys than the type recognises.  Reading
relies on this, and checks nothing.

* `Vetted` : a value has been checked, all the way down;
* `Vetted.of_stored` : so has what a tree without an objection was stored as;
* `Typing.Describes.vetted_insert` : **so have the data around a record when one of its fields is
  replaced by a value that has been checked.**
-/

namespace Overlay

/-! ### Schemas in which names are storage keys -/

/-- The declared type has properties, or is a built-in one. -/
def Schema.declares (s : Schema) : DataType → Bool
  | .builtin _ => true
  | .model t => (s.type t).isStructured
  | .adapter _ => false

/-- All types are open, and properties are stored under their names and declared with types that
have properties of their own. -/
structure Schema.Direct (s : Schema) : Prop where
  /-- All types may be instantiated, wrap the standard way and run nothing. -/
  isOpen : s.Open
  /-- Properties are stored under their names. -/
  named : ∀ {t key p}, (s.type t).property? key = some p → p.storageKey = p.name
  /-- Model types among the declared ones have properties. -/
  declared : ∀ {t key p}, (s.type t).property? key = some p →
    ∀ u ∈ p.type :: p.elements, s.declares u = true

/-- An entry under the key is accepted by the type as far as the key is concerned. -/
def ModelType.Recognizes (t : ModelType) (key : String) : Prop :=
  (t.through? key).isSome = true ∨ isReserved key = true ∨ t.allowsAdditional = true

namespace Schema.Direct

variable {s : Schema} {t : TypeId} {key : String} {p : Property}

theorem storageKey_eq (d : s.Direct)
    (hp : (s.type t).property? key = some p) : p.storageKey = key :=
  (d.isOpen.built.soundAt t).storageKey_eq hp (d.named hp)

theorem regular (d : s.Direct) : s.Regular :=
  ⟨d.isOpen.built, d.isOpen.ruleFree, fun _ => ModelType.wellKeyed_of_named d.named⟩

/-- It is enough to look at the properties that the types list. -/
theorem of_listed (o : s.Open) (listed : ∀ t ∈ s.models.toList,
    ∀ e ∈ t.properties.layers.flatMap (·.entries), e.2.storageKey = e.2.name ∧
      ∀ u ∈ e.2.type :: e.2.elements, s.declares u = true) : s.Direct := by
  have found : ∀ t key p, (s.type t).property? key = some p → p.storageKey = p.name ∧
      ∀ u ∈ p.type :: p.elements, s.declares u = true := by
    intro t key p hp
    obtain ⟨layer, hl, k, he⟩ := PropertyLayers.lists_of_get? hp
    exact s.forall_type (P := fun t => ∀ e ∈ t.properties.layers.flatMap (·.entries),
      e.2.storageKey = e.2.name ∧ ∀ u ∈ e.2.type :: e.2.elements, s.declares u = true)
      nofun listed t _ (List.mem_flatMap.2 ⟨layer, hl, he⟩)
  exact ⟨o, fun hp => (found _ _ _ hp).1, fun hp => (found _ _ _ hp).2⟩

end Schema.Direct

/-! ### Checked values -/

/-- The value has been checked for the type, all the way down: it is absent, or of the type, and a
record has no other keys than its type recognises. -/
inductive Vetted (s : Schema) (h : Heap) : DataType → List DataType → Value → Prop
  | nothing {t : DataType} {ts : List DataType} {v : Value} (none : v.isNothing = true) :
    Vetted s h t ts v
  /-- A value of a built-in type, without parts that are declared. -/
  | plain {b : Builtin} {ts : List DataType} {v : Value} (raw : v.isModel = false)
      (own : b.accepts v = true) (whole : b = .array → ts = []) : Vetted s h (.builtin b) ts v
  /-- An array of elements of a declared type. -/
  | array {t : DataType} {ts : List DataType} {a : ArrayId}
      (elements : ∀ v ∈ h.items a, Vetted s h t ts v) :
      Vetted s h (.builtin .array) (t :: ts) (.array a)
  /-- A record under a type with properties. -/
  | record {t : TypeId} {ts : List DataType} {r : RecordId}
      (keys : ∀ key ∈ (h.fields r).keys, (s.type t).Recognizes key)
      (fields : ∀ key p, (s.type t).through? key = some p →
        Vetted s h p.type p.elements ((h.fields r).get key)) : Vetted s h (.model t) ts (.record r)

/-- A value of a declared type has another one in a declared place: itself, an element, or what a
property of a record is stored as, and so on. -/
inductive Places (s : Schema) (h : Heap) : DataType → List DataType → Value →
    DataType → List DataType → Value → Prop
  | here (t : DataType) (ts : List DataType) (v : Value) : Places s h t ts v t ts v
  | item {t u : DataType} {ts us : List DataType} {a : ArrayId} {v w : Value} (mem : v ∈ h.items a)
      (rest : Places s h t ts v u us w) : Places s h (.builtin .array) (t :: ts) (.array a) u us w
  | field {t : TypeId} {u : DataType} {ts us : List DataType} {r : RecordId} {key : String}
      {p : Property} {w : Value} (through : (s.type t).through? key = some p)
      (rest : Places s h p.type p.elements ((h.fields r).get key) u us w) :
      Places s h (.model t) ts (.record r) u us w

theorem Places.declared {s : Schema} {h : Heap} {t u : DataType} {ts us : List DataType}
    {v w : Value} (d : s.Direct) (places : Places s h t ts v u us w)
    (declared : ∀ x ∈ t :: ts, s.declares x = true) :
    ∀ x ∈ u :: us, s.declares x = true := by
  induction places with
  | here => exact declared
  | item _ _ ih => exact ih fun x hx => declared x (List.mem_cons_of_mem _ hx)
  | field through _ ih => exact ih (d.declared (ModelType.through?_eq_some.1 through).2)

namespace Vetted

open Heap

variable {s : Schema} {h h' : Heap} {t u : DataType} {ts us : List DataType} {v w : Value}

theorem not_model (vetted : Vetted s h t ts v) : v.isModel = false := by
  cases vetted with
  | nothing none => cases v <;> first | rfl | cases none
  | plain raw _ _ => exact raw
  | array _ => rfl
  | record _ _ => rfl

theorem accepts {b : Builtin} (vetted : Vetted s h (.builtin b) ts v) :
    v.isNothing = true ∨ b.accepts v = true := by
  cases vetted with
  | nothing none => exact Or.inl none
  | plain _ own _ => exact Or.inr own
  | array _ => exact Or.inr rfl

theorem items {a : ArrayId} (vetted : Vetted s h (.builtin .array) (t :: ts) (.array a)) :
    ∀ v ∈ h.items a, Vetted s h t ts v := by
  cases vetted with
  | nothing none => cases none
  | plain _ _ whole => cases whole rfl
  | array elements => exact elements

theorem record_of_model {t : TypeId} (vetted : Vetted s h (.model t) ts v)
    (there : v.isNothing = false) : ∃ r, v = .record r := by
  cases vetted with
  | nothing none => cases there.symm.trans none
  | record _ _ => exact ⟨_, rfl⟩

theorem keys {t : TypeId} {r : RecordId} (vetted : Vetted s h (.model t) ts (.record r)) :
    ∀ key ∈ (h.fields r).keys, (s.type t).Recognizes key := by
  cases vetted with
  | nothing none => cases none
  | record keys _ => exact keys

theorem fields {t : TypeId} {r : RecordId} (vetted : Vetted s h (.model t) ts (.record r)) :
    ∀ key p, (s.type t).through? key = some p →
      Vetted s h p.type p.elements ((h.fields r).get key) := by
  cases vetted with
  | nothing none => cases none
  | record _ fields => exact fields

theorem places (places : Places s h t ts v u us w) (vetted : Vetted s h t ts v) :
    Vetted s h u us w := by
  induction places with
  | here => exact vetted
  | item mem _ ih => exact ih (vetted.items _ mem)
  | field through _ ih => exact ih (vetted.fields _ _ through)

theorem of_same (vetted : Vetted s h t ts v) (fields : ∀ r, h'.fields r = h.fields r)
    (items : ∀ a, h'.items a = h.items a) : Vetted s h' t ts v := by
  induction vetted with
  | nothing none => exact .nothing none
  | plain raw own whole => exact .plain raw own whole
  | array _ ih =>
    refine .array fun v hv => ih v ?_
    rwa [items] at hv
  | record keys _ ih =>
    refine .record (fun key hk => keys key ?_) fun key p hp => ?_
    · rwa [fields] at hk
    · rw [fields]
      exact ih key p hp

/-! ### Stored trees -/

section Stored

variable {strict : Bool} {q : Slot} {b : Builtin} {P : Value → Prop} {m : TypeId} {x y : Tree}
  {es fields : Entries} {r : RecordId}

theorem accepts_of_taken? (type : q.type = .builtin b) (h : q.taken? s strict v = some w) :
    b.accepts w = true ∧ b ≠ .array := by
  have taken : ∀ {b : Builtin}, b ≠ .integer → b.taken? strict v = some w → b.accepts w = true := by
    intro b hb h
    unfold Builtin.taken? at h
    split at h
    · rename_i own
      cases h
      exact own
    · split at h
      · cases h
      · exact (Builtin.converted?_accepts hb h).2
  unfold Slot.taken? at h
  rw [type] at h
  cases b with
  | object => exact ⟨rfl, nofun⟩
  | array => cases h
  | integer =>
    obtain ⟨number, whole⟩ := Option.filter_eq_some_iff.1 h
    have own := taken (b := .number) nofun number
    cases w <;> first | exact ⟨whole, nofun⟩ | cases own
  | _ => exact ⟨taken (by nofun) h, nofun⟩

theorem of_leaf (o : s.Open) (declared : s.declares q.type = true)
    (stored : Tree.idle s strict q (.leaf v) = pure y) (sh : h.Shows P [w] [y]) :
    Vetted s h q.type q.elements w := by
  cases there : v.isNothing with
  | true =>
    rw [Tree.idle_nothing there] at stored
    cases Verdict.pure_injective stored
    obtain ⟨e, -⟩ := sh.of_isLeaf rfl
    cases e
    exact .nothing there
  | false =>
    rw [Tree.idle_there o there] at stored
    cases taken : q.taken? s strict v with
    | none =>
      rw [taken] at stored
      exact absurd stored Verdict.invalid_ne_pure
    | some v' =>
      rw [taken] at stored
      cases Verdict.pure_injective stored
      obtain ⟨e, -⟩ := sh.of_isLeaf rfl
      cases e
      rcases hq : q.type with b | t | a
      · obtain ⟨own, other⟩ := accepts_of_taken? hq taken
        exact .plain sh.not_model own fun e => absurd e other
      · -- a type with properties takes nothing but records
        rw [hq] at declared
        unfold Slot.taken? at taken
        rw [hq] at taken
        dsimp only at taken
        rw [if_pos (by exact declared)] at taken
        cases taken
      · rw [hq] at declared
        cases declared

theorem of_idle (o : s.Open) (declared : s.declares q.type = true) (still : x.Still s (some q))
    (stored : Tree.idle s strict q x = pure y)
    (sh : h.Shows P [w] [y]) :
    Vetted s h q.type q.elements w := by
  cases x with
  | leaf v => exact of_leaf o declared stored sh
  | array xs =>
    rw [Tree.idle_array o] at stored
    split at stored
    · exact absurd stored Verdict.raise_ne_pure
    · split at stored
      · rename_i other fits
        cases Verdict.pure_injective stored
        cases sh
        rcases hq : q.type with b | t | a
        · refine .plain rfl ?_ fun array => ?_
          · rw [Tree.fits, hq] at fits
            simp only [Bool.or_eq_true, decide_eq_true_eq] at fits
            rcases fits with rfl | rfl <;> rfl
          · have none : q.items? = none := still
            unfold Slot.items? Slot.element? at none
            rw [hq, array] at none
            cases hqs : q.elements with
            | nil => rfl
            | cons u us =>
              rw [hqs] at none
              cases none
        · exact absurd (by rw [hq]; rfl) other
        · rw [hq] at declared
          cases declared
      · exact absurd stored Verdict.invalid_ne_pure
  | record es =>
    rw [Tree.idle_record o still] at stored
    split at stored
    · rename_i fits
      cases Verdict.pure_injective stored
      cases sh
      rcases hq : q.type with b | t | a
      · rw [Tree.fits, hq] at fits
        obtain rfl : b = .object := of_decide_eq_true fits
        exact .plain rfl rfl fun e => by cases e
      · -- the fields of a record go through the properties of the type
        have none : q.form? s = none := still
        rw [hq] at declared
        unfold Slot.form? at none
        rw [hq] at none
        dsimp only at none
        rw [o.wraps, Bool.true_and, if_pos (by exact declared)] at none
        cases none
      · rw [hq] at declared
        cases declared
    · exact absurd stored Verdict.invalid_ne_pure

/-- A record whose entries were admitted without an objection, if what each was stored as has been
checked. -/
theorem of_admitted (d : s.Direct) (tidy : es.Tidy)
    (admitted : Tree.admitted s strict m es [] es = pure fields)
    (entries : ∀ e ∈ es, ∀ p y w, (s.type m).through? e.1 = some p →
      Tree.stored s strict p.slot e.2 = pure y → h.Shows P [w] [y] → Vetted s h p.type p.elements w)
    (keys : (h.fields r).keys = fields.keys)
    (sh : h.Shows P (h.fields r).values (fields.map Prod.snd)) :
    Vetted s h (.model m) ts (.record r) := by
  have found : ∀ {key p}, (s.type m).through? key = some p →
      (s.type m).property? key = some p ∧ p.storageKey = key := fun hp =>
    have hp := (ModelType.through?_eq_some.1 hp).2
    ⟨hp, d.storageKey_eq hp⟩
  refine .record (fun key hk => ?_) fun key p hp => ?_
  · rw [keys] at hk
    obtain ⟨-, -, more, e, source⟩ := Tree.admitted_keys admitted tidy.defined_mem tidy
    rw [e] at hk
    rcases List.mem_append.1 hk with hk | hk
    · obtain ⟨e, he, rfl⟩ := List.mem_map.1 hk
      cases through : (s.type m).through? e.1 with
      | some p => exact Or.inl (by rw [through]; rfl)
      | none =>
        cases reserved : isReserved e.1 with
        | true => exact Or.inr (Or.inl reserved)
        | false =>
          exact Or.inr (Or.inr ((Tree.stored_of_admitted admitted e he).2 through reserved))
    · obtain ⟨e, -, p, hp, rfl⟩ := source key hk
      exact Or.inl (by rw [(found hp).2, hp]; rfl)
  · obtain ⟨hp', same⟩ := found hp
    have shown := sh.get keys key
    obtain ⟨entry, untouched⟩ := Tree.admitted_stored (d.regular.keyed m)
      (d.isOpen.built.soundAt m).toPlacedAt hp' admitted tidy.nodup
    rw [same] at entry untouched
    cases last : Tree.lastKey? (s.type m) p es.keys with
    | some k =>
      obtain ⟨mem, through⟩ := Tree.lastKey?_eq_some last
      obtain ⟨e, he, rfl⟩ := List.mem_map.1 mem
      have stored := entry _ last
      rw [Entries.get_of_mem tidy.nodup he] at stored
      exact entries e he p _ _ through stored shown
    | none =>
      -- no entry goes there
      have out : key ∉ es.keys := fun mem => by
        have : key ∈ es.keys.filter fun key => (s.type m).through? key = some p :=
          List.mem_filter.2 ⟨mem, decide_eq_true hp⟩
        rw [List.getLast?_eq_none_iff.1 last] at this
        cases this
      rw [untouched last, Entries.get_of_not_mem out] at shown
      exact .nothing (shown.isNothing_eq.symm.trans rfl)

/-- **What a tree without an objection was stored as has been checked.** -/
theorem of_stored (d : s.Direct) (declared : ∀ u ∈ q.type :: q.elements, s.declares u = true)
    (proper : x.Proper) (stored : Tree.stored s strict q x = pure y) (sh : h.Shows P [w] [y]) :
    Vetted s h q.type q.elements w := by
  have idled : ∀ {q : Slot} {y w} (x : Tree), (∀ u ∈ q.type :: q.elements, s.declares u = true) →
      x.Still s (some q) → Tree.stored s strict q x = pure y → h.Shows P [w] [y] →
        Vetted s h q.type q.elements w := fun x declared still stored sh =>
    of_idle d.isOpen (declared _ List.mem_cons_self) still
      (Tree.stored_of_still still strict ▸ stored) sh
  induction proper generalizing q y w with
  | leaf v => exact idled (.leaf v) declared trivial stored sh
  | @array xs _ ih =>
    cases hi : q.items? with
    | none => exact idled (.array xs) declared hi stored sh
    | some e =>
      obtain ⟨ys, items, rfl⟩ := (Tree.stored_array_pure hi).1 stored
      obtain ⟨type, elements⟩ := Slot.declares_of_items? hi
      rw [type, elements]
      cases sh with
      | array _ inside _ =>
        refine .array fun v hv => ?_
        obtain ⟨y, hy, shown⟩ := inside.exists_of_mem hv
        obtain ⟨x, hx, stored⟩ := Tree.exists_of_storedItems items hy
        refine ih x hx (fun u hu => declared u ?_) stored shown
        rw [elements]
        exact List.mem_cons_of_mem _ hu
  | @record es tidy _ ih =>
    cases hf : q.form? s with
    | none => exact idled (.record es) declared hf stored sh
    | some t =>
      obtain ⟨-, fields, admitted, rfl⟩ := (Tree.stored_record_pure hf).1 stored
      rw [Slot.type_of_form? hf]
      cases sh with
      | record _ keys inside _ =>
        exact of_admitted d tidy admitted (fun e he p y w through stored shown =>
          ih e he (d.declared (ModelType.through?_eq_some.1 through).2) stored shown) keys inside

/-- So has the record of a model, if there was no objection to what it was constructed from. -/
theorem of_constructed (d : s.Direct) {name : Option String}
    (structured : (s.type m).isStructured = true) (proper : x.Proper)
    (made : Tree.constructed s strict name m x = pure (.record fields))
    (keys : (h.fields r).keys = fields.keys)
    (sh : h.Shows P (h.fields r).values (fields.map Prod.snd)) :
    Vetted s h (.model m) ts (.record r) := by
  unfold Tree.constructed at made
  rw [d.isOpen.instances, structured, if_neg (by decide), if_pos rfl] at made
  have nothing : fields = [] → Vetted s h (.model m) ts (.record r) := by
    rintro rfl
    have none : ∀ key, key ∉ (h.fields r).keys := fun key hk =>
      absurd (keys ▸ hk : key ∈ Entries.keys []) List.not_mem_nil
    refine .record (fun key hk => absurd hk (none key)) fun key p _ => .nothing ?_
    rw [Classical.not_not.1 fun there => none key (Fields.mem_keys_iff.2 there)]
    rfl
  cases proper with
  | @record es tidy entries =>
    obtain ⟨fields', admitted, rest⟩ := Verdict.bind_eq_pure made
    cases Verdict.pure_injective rest
    exact of_admitted d tidy admitted (fun e he p y w through stored shown =>
      of_stored d (d.declared (ModelType.through?_eq_some.1 through).2) (entries e he) stored shown)
      keys sh
  | _ =>
    dsimp only at made
    split at made
    · cases Verdict.pure_injective made
      exact nothing rfl
    · obtain ⟨_, refused, -⟩ := Verdict.bind_eq_pure made
      exact absurd refused Verdict.invalid_ne_pure

end Stored

end Vetted

/-! ### Changes -/

section Changes

variable {s : Schema} {W : Typing} {h h' : Heap} {t : DataType} {ts : List DataType} {v : Value}

/-- **Data that have been checked stay so while what changes in typed cells has been checked.**  The
elements of typed arrays are the same, and a field of a typed record is the same or has been checked
as it is now. -/
theorem Typing.Describes.vetted_of_changes (d : W.Describes s h) (direct : s.Direct)
    (keys : ∀ r u, W.record r = some (.data u) → ∀ key ∈ (h'.fields r).keys,
      key ∈ (h.fields r).keys ∨ (s.type u).Recognizes key)
    (fields : ∀ r u, W.record r = some (.data u) → ∀ key p, (s.type u).through? key = some p →
      (h'.fields r).get key = (h.fields r).get key ∨
        Vetted s h' p.type p.elements ((h'.fields r).get key))
    (items : ∀ a e, W.array a = some e → h'.items a = h.items a) (vetted : Vetted s h t ts v)
    (fits : W.Fits s t ts v) : Vetted s h' t ts v := by
  induction vetted with
  | nothing none => exact .nothing none
  | plain raw own whole => exact .plain raw own whole
  | @array t ts a _ ih =>
    obtain ⟨a, e, type⟩ := fits.resolve_left (by exact Bool.false_ne_true)
    cases e
    refine .array fun v hv => ?_
    rw [items a _ type] at hv
    exact ih v hv (d.items a t ts type v hv)
  | @record u ts r known _ ih =>
    have has : W.Has s (.model u) ts (.record r) := fits.resolve_left (by exact Bool.false_ne_true)
    have role : W.record r = some (.data u) := (has.2 (direct.isOpen.wraps u)).2 r rfl
    refine .record (fun key hk => (keys r u role key hk).elim (known key) id) fun key p hp => ?_
    rcases fields r u role key p hp with same | checked
    · obtain ⟨free, found⟩ := ModelType.through?_eq_some.1 hp
      have same' := direct.storageKey_eq found
      have suits := d.fields r u role key p found
      rw [same]
      rw [same'] at suits
      exact ih key p hp (suits.fits (same' ▸ free))
    · exact checked

/-- Changes of cells without a type leave typed records alone. -/
theorem Heap.ChangesOnly.record_of_untyped {cells : List Value} {r : RecordId} {role : Role}
    (changes : h.ChangesOnly h' cells) (d : W.Describes s h) (untyped : W.Untyped cells)
    (typed : W.record r = some role) : h'.fields r = h.fields r :=
  changes.fields r (d.recordHeld r _ typed) fun mem => nomatch (untyped.record r mem).symm.trans typed

theorem Typing.Describes.vetted_of_changesOnly {cells : List Value} (d : W.Describes s h)
    (direct : s.Direct) (changes : h.ChangesOnly h' cells) (untyped : W.Untyped cells)
    (vetted : Vetted s h t ts v) (fits : W.Fits s t ts v) : Vetted s h' t ts v := by
  refine d.vetted_of_changes direct (fun r u role key hk => Or.inl ?_)
    (fun r u role key p _ => Or.inl ?_) (fun a e type => ?_) vetted fits
  · rwa [changes.record_of_untyped d untyped role] at hk
  · rw [changes.record_of_untyped d untyped role]
  · exact changes.items a (d.arrayHeld a e type) fun mem =>
      nomatch (untyped.array a mem).symm.trans type

/-- A field of a typed record may be replaced by what has been checked for its property. -/
theorem Typing.Describes.vetted_insert {cells : List Value} {r : RecordId} {m : TypeId}
    {p : Property} {w : Value} (d : W.Describes s h) (direct : s.Direct)
    (changes : h.ChangesOnly h' cells) (untyped : W.Untyped cells)
    (role : W.record r = some (.data m)) (found : (s.type m).property? p.storageKey = some p)
    (checked : Vetted s (h'.insert r p.storageKey w) p.type p.elements w)
    (vetted : Vetted s h t ts v) (fits : W.Fits s t ts v) :
    Vetted s (h'.insert r p.storageKey w) t ts v := by
  have held : h'.Holds (.record r) := (d.recordHeld r _ role).grows changes.grows
  have get : ∀ r' u, W.record r' = some (.data u) → ∀ k,
      ((h'.insert r p.storageKey w).fields r').get k =
        if r' = r ∧ k = p.storageKey then w else (h.fields r').get k := by
    intro r' u role' k
    rw [Heap.fields_insert]
    by_cases e : r' = r
    · rw [if_pos ⟨e, held⟩, Fields.get_insert, changes.record_of_untyped d untyped role']
      simp [e]
    · rw [if_neg fun h => e h.1, if_neg fun h => e h.1, changes.record_of_untyped d untyped role']
  refine d.vetted_of_changes direct (fun r' u role' k hk => ?_) (fun r' u role' k q hq => ?_)
    (fun a e type => ?_) vetted fits
  · rw [Fields.mem_keys_iff, get r' u role'] at hk
    split at hk
    · rename_i own
      obtain ⟨rfl, rfl⟩ := own
      cases role.symm.trans role'
      refine Or.inr ?_
      cases reserved : isReserved p.storageKey with
      | true => exact Or.inr (Or.inl reserved)
      | false => exact Or.inl (by rw [ModelType.through?_eq_some.2 ⟨reserved, found⟩]; rfl)
    · exact Or.inl (Fields.mem_keys_iff.2 hk)
  · rw [get r' u role']
    split
    · rename_i own
      obtain ⟨rfl, rfl⟩ := own
      cases role.symm.trans role'
      cases found.symm.trans (ModelType.through?_eq_some.1 hq).2
      exact Or.inr checked
    · exact Or.inl rfl
  · exact (h'.items_insert r _ w a).trans (changes.items a (d.arrayHeld a e type) fun mem =>
      nomatch (untyped.array a mem).symm.trans type)

end Changes

end Overlay
