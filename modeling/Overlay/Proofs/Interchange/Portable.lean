import Overlay.Proofs.Interchange.Trees
import Overlay.Proofs.Number.Finite
import Overlay.Proofs.Plain.Collecting
import Overlay.Proofs.Plain.RoundTrip
import Overlay.Proofs.Time.Text

/-!
# What survives JSON

JSON has no dates, no negative zero, no infinite numbers, and no order of keys.  Where it is
declared what a value is, the dates come back with their types, and all else that is lost makes no
difference to equality.

* `Schema.Portable` : every property says what it stores;
* `Tree.Suits` : a tree is what a slot stores;
* `Tree.suits_of_stored` : so is the clean form of all that was stored without objection;
* `Tree.Suits.reread` : **what suits a slot is stored again once it has gone through JSON**, and its
  clean form is equal, but for fractions of milliseconds.
-/

namespace Overlay

/-! ### Declarations -/

/-- Values of the type, with elements of these types, can be told by their JSON. -/
def DataType.Portable (s : Schema) : DataType → List DataType → Prop
  | .builtin .array, u :: us => u.Portable s us
  | .builtin .array, [] => False
  | .builtin .object, _ => False
  | .builtin _, _ => True
  | .model t, _ => (s.type t).wraps = true ∧ (s.type t).isStructured = true
  | .adapter _, _ => False

/-- Whether a declaration tells what is stored is decided along the element types. -/
def DataType.decPortable (s : Schema) : (t : DataType) → (us : List DataType) →
    Decidable (t.Portable s us)
  | .builtin .array, u :: us => decPortable s u us
  | .builtin .array, [] => .isFalse id
  | .builtin .object, us => .isFalse (by cases us <;> exact id)
  | .builtin .string, us => .isTrue (by cases us <;> trivial)
  | .builtin .number, us => .isTrue (by cases us <;> trivial)
  | .builtin .integer, us => .isTrue (by cases us <;> trivial)
  | .builtin .boolean, us => .isTrue (by cases us <;> trivial)
  | .builtin .date, us => .isTrue (by cases us <;> trivial)
  | .model t, us => decidable_of_iff ((s.type t).wraps = true ∧ (s.type t).isStructured = true)
      (by cases us <;> exact Iff.rfl)
  | .adapter _, us => .isFalse (by cases us <;> exact id)

instance (s : Schema) (t : DataType) (us : List DataType) : Decidable (t.Portable s us) :=
  t.decPortable s us

/-- The slot says what it stores. -/
def Slot.Portable (s : Schema) (q : Slot) : Prop := q.type.Portable s q.elements

theorem Slot.Portable.items {s : Schema} {q e : Slot} (hq : q.Portable s)
    (hi : q.items? = some e) : e.Portable s := by
  unfold Portable at hq ⊢
  unfold items? element? at hi
  split at hi
  · rename_i type
    rw [type] at hq
    generalize q.elements = us at hq hi
    cases us with
    | nil => cases hi
    | cons u us =>
      cases hi
      rwa [DataType.Portable] at hq
  · cases hi

theorem Slot.isStructured_of_form? {s : Schema} {q : Slot} {t : TypeId}
    (h : q.form? s = some t) : (s.type t).isStructured = true := by
  have shape := shape?_of_form? h
  unfold shape? at shape
  split at shape
  · split at shape
    · cases shape
      assumption
    · cases shape
  · cases shape

/-- The schema is built without hooks and enumerations.  Every property persists under its own name
and says what it stores, and where there are properties there is nothing else. -/
structure Schema.Portable (s : Schema) : Prop where
  /-- It is built without hooks. -/
  built : s.Built
  /-- Its types have no rules. -/
  free : ∀ t, (s.type t).RuleFree
  /-- Properties persist. -/
  persists : ∀ {t key p}, (s.type t).property? key = some p → p.isPersisted = true
  /-- They are stored under their names. -/
  named : ∀ {t key p}, (s.type t).property? key = some p → p.storageKey = p.name
  /-- Their declarations tell what is stored. -/
  declared : ∀ {t key p}, (s.type t).property? key = some p → p.slot.Portable s
  /-- Beside them there is nothing. -/
  closed : ∀ t, (s.type t).isStructured = true → (s.type t).allowsAdditional = false

/-- It is enough to look at the types that there are, and at all properties that their layers
list. -/
theorem Schema.Built.portable {s : Schema} (h : s.Built)
    (listed : ∀ t ∈ s.models.toList, t.RuleFree ∧
      (t.isStructured = true → t.allowsAdditional = false) ∧
      ∀ e ∈ t.properties.layers.flatMap (·.entries),
        e.2.isPersisted = true ∧ e.2.storageKey = e.2.name ∧ e.2.type.Portable s e.2.elements) :
    s.Portable := by
  have all := s.forall_type (P := fun t => t.RuleFree ∧
    (t.isStructured = true → t.allowsAdditional = false) ∧
    ∀ e ∈ t.properties.layers.flatMap (·.entries),
      e.2.isPersisted = true ∧ e.2.storageKey = e.2.name ∧ e.2.type.Portable s e.2.elements)
    ⟨by decide, by decide, nofun⟩ listed
  have found : ∀ {t key p}, (s.type t).property? key = some p →
      p.isPersisted = true ∧ p.storageKey = p.name ∧ p.type.Portable s p.elements := by
    intro t key p hp
    obtain ⟨layer, hl, k, he⟩ := PropertyLayers.lists_of_get? hp
    exact (all t).2.2 (k, p) (List.mem_flatMap.2 ⟨layer, hl, he⟩)
  exact ⟨h, fun t => (all t).1, fun hp => (found hp).1, fun hp => (found hp).2.1,
    fun hp => (found hp).2.2, fun t => (all t).2.1⟩

namespace Schema.Portable

variable {s : Schema} (P : s.Portable) {t : TypeId} {key : String} {p : Property}
include P

theorem storageKey_eq (hp : (s.type t).through? key = some p) : p.storageKey = key := by
  have found := (ModelType.through?_eq_some.1 hp).2
  have answers := (P.built.soundAt t).answersTo found
  simp only [Property.answersTo, Bool.or_eq_true, beq_iff_eq] at answers
  exact answers.elim (P.named found).trans id

theorem keeps (hp : (s.type t).through? key = some p) : (s.type t).keeps key = true := by
  refine Tree.keeps_iff.2 ⟨(ModelType.through?_eq_some.1 hp).1, ?_⟩
  rw [hp]
  exact P.persists (ModelType.through?_eq_some.1 hp).2

theorem regular : s.Regular where
  built := P.built
  free := P.free
  keyed := fun t key key' p q hp hq => by
    rw [P.named hp, P.named hq]
    exact ⟨id, fun h => ⟨h, h⟩⟩

end Schema.Portable

namespace Tree

variable {s : Schema} {strict : Bool} {q : Slot} {name : Option String} {b : Builtin} {t : TypeId}
  {p : Property} {v w : Value} {x y : Tree} {es out : Entries}

/-- When all entries of a record have gone through their properties without objection, the keys are
the same, and under each stands what was stored of its own entry. -/
theorem admitted_portable (P : s.Portable) (tidy : es.Tidy)
    (run : admitted s strict t es [] es = pure out) :
    out.keys = es.keys ∧ ∀ key ∈ es.keys, ∀ p, (s.type t).through? key = some p →
      stored s strict p.slot (es.get key) = pure (out.get key) := by
  obtain ⟨tidy', -, more, keys, source⟩ := admitted_keys run tidy.defined_mem tidy
  have none : more = [] := by
    refine List.eq_nil_iff_forall_not_mem.2 fun k hk => ?_
    obtain ⟨e, he, p, hp, rfl⟩ := source k hk
    have apart := tidy'.nodup
    rw [keys] at apart
    refine (List.nodup_append.1 apart).2.2 e.1 (List.mem_map.2 ⟨e, he, rfl⟩) _ hk ?_
    exact (P.storageKey_eq hp).symm
  refine ⟨by rw [keys, none, List.append_nil], fun key hkey p hp => ?_⟩
  obtain ⟨last, hlast⟩ := exists_lastKey? hkey hp
  have own : last = key :=
    (P.storageKey_eq (lastKey?_eq_some hlast).2).symm.trans (P.storageKey_eq hp)
  have result := (admitted_stored (P.regular.keyed t) (P.built.soundAt t).toPlacedAt
    (ModelType.through?_eq_some.1 hp).2 run tidy.nodup).1 last hlast
  rwa [own, P.storageKey_eq hp] at result

end Tree

/-! ### What slots store -/

/-- The value is a finite number, or none. -/
def Value.isFinite : Value → Bool
  | .number x => x.isFinite
  | _ => true

/-- The values of the type are known from outside, and have no parts. -/
def Builtin.isScalar : Builtin → Bool
  | .object => false
  | .array => false
  | _ => true

theorem Builtin.isFinite_converted? {b : Builtin} {v w : Value} (h : b.converted? v = some w) :
    w.isFinite = true := by
  have number : ∀ {v n}, toNumber? v = some n → n.isFinite = true := by
    intro v n h
    cases v <;> simp only [toNumber?, Option.some.injEq, reduceCtorEq] at h
    case string s => exact (Option.filter_eq_some_iff.1 h).2
    case bool b => exact h ▸ (by cases b <;> rfl)
    case date t => exact h ▸ t.isFinite_millis
  cases b <;> simp only [converted?, Option.map_eq_some_iff, reduceCtorEq] at h <;>
    obtain ⟨n, hn, rfl⟩ := h <;> first | rfl | exact number hn

namespace Tree

variable {s : Schema} {strict : Bool} {q : Slot} {name : Option String} {b : Builtin} {t : TypeId}
  {p : Property} {v w : Value} {x y : Tree} {es out : Entries}

/-- The tree is what the slot stores, and all of it persists: null, a value of the declared type, an
array of what is declared for elements, or a record whose fields suit their properties. -/
inductive Suits (s : Schema) : Slot → Tree → Prop
  | null {q : Slot} : Suits s q (leaf .null)
  | leaf {q : Slot} {b : Builtin} {v : Value} (type : q.type = .builtin b)
      (scalar : b.isScalar = true) (own : b.accepts v = true) (finite : v.isFinite = true) :
      Suits s q (leaf v)
  | array {q e : Slot} {xs : List Tree} (items : q.items? = some e) (each : ∀ x ∈ xs, Suits s e x) :
      Suits s q (array xs)
  | record {q : Slot} {t : TypeId} {es : Entries} (form : q.form? s = some t)
      (allowed : (s.type t).allowsInstances = true) (tidy : es.Tidy)
      (known : ∀ e ∈ es, ∃ p, (s.type t).through? e.1 = some p)
      (each : ∀ e ∈ es, ∀ p, (s.type t).through? e.1 = some p → Suits s p.slot e.2) :
      Suits s q (record es)

theorem scalar_own (hb : b ≠ .integer) (finite : v.isFinite = true) (there : v ≠ .undefined)
    (h : scalar strict name b (leaf v) = pure y) :
    y = leaf .null ∨ ∃ w, y = leaf w ∧ b.accepts w = true ∧ w.isFinite = true := by
  cases nothing : v.isNothing with
  | true =>
    unfold scalar at h
    dsimp only at h
    rw [nothing, Bool.true_or, if_pos rfl] at h
    obtain rfl := Verdict.pure_injective h
    cases v <;> first | exact Or.inl rfl | exact absurd rfl there | cases nothing
  | false =>
    rw [scalar_there nothing] at h
    cases taken : b.taken? strict v with
    | none =>
      rw [taken] at h
      exact absurd h Verdict.invalid_ne_pure
    | some w =>
      rw [taken] at h
      obtain rfl := Verdict.pure_injective h
      refine Or.inr ⟨w, rfl, ?_⟩
      unfold Builtin.taken? at taken
      split at taken
      · cases taken
        exact ⟨‹_›, finite⟩
      · split at taken
        · cases taken
        · exact ⟨(Builtin.converted?_accepts hb taken).2, Builtin.isFinite_converted? taken⟩

theorem suits_of_leaf (hq : q.Portable s) (finite : v.isFinite = true) (there : v ≠ .undefined)
    (h : stored s strict q (leaf v) = pure y) : Suits s q y := by
  have nothing : v.isNothing = true → y = leaf v → Suits s q y := by
    rintro nothing rfl
    cases v <;> first | exact .null | exact absurd rfl there | cases nothing
  rw [stored] at h
  unfold Slot.Portable at hq
  unfold idle at h
  split at h
  · rename_i type
    rw [type, DataType.Portable] at hq
    exact hq.elim
  · split at h
    · rename_i absent
      rw [show (leaf v).isArray = false from rfl, Bool.or_false] at absent
      exact nothing absent (Verdict.pure_injective h).symm
    · exact absurd h Verdict.invalid_ne_pure
  · rename_i type
    obtain ⟨z, number, rest⟩ := Verdict.bind_eq_pure h
    rcases scalar_own Builtin.noConfusion finite there number with rfl | ⟨w, rfl, own, -⟩
    · obtain rfl := Verdict.pure_injective rest
      exact .null
    · cases w with
      | number n =>
        dsimp only at rest
        split at rest
        · rename_i integral
          obtain rfl := Verdict.pure_injective rest
          exact .leaf type rfl integral (Binary64.isFinite_of_isIntegral integral)
        · exact absurd rest Verdict.invalid_ne_pure
      | _ => cases own
  · rename_i b object array integer type
    rcases scalar_own (fun e => integer e) finite there h with rfl | ⟨w, rfl, own, finite⟩
    · exact .null
    · refine .leaf type ?_ own finite
      cases b <;> first | rfl | contradiction
  · rename_i t type
    rw [type, DataType.Portable] at hq
    obtain ⟨wraps, structured⟩ := hq
    unfold bare at h
    rw [wraps, structured] at h
    split at h
    · rename_i absent
      rw [Bool.not_true, Bool.or_false] at absent
      exact nothing absent (Verdict.pure_injective h).symm
    · split at h
      · exact absurd h Verdict.raise_ne_pure
      · exact absurd h Verdict.invalid_ne_pure
  · rename_i type
    rw [type, DataType.Portable] at hq
    exact hq.elim

theorem idle_ne_pure (hq : q.Portable s) (hx : x.isLeaf = false)
    (array : x.isArray = true → q.items? = none) (record : x.isArray = false → q.form? s = none) :
    idle s strict q x ≠ pure y := by
  intro h
  have nothing : x.isNothing = false := by cases x <;> first | rfl | cases hx
  unfold Slot.Portable at hq
  unfold Slot.items? Slot.element? at array
  unfold Slot.form? at record
  unfold idle at h
  split at h
  · rename_i type
    rw [type, DataType.Portable] at hq
    exact hq
  · rename_i type
    split at h
    · rename_i isArray
      rw [nothing, Bool.false_or] at isArray
      rw [type] at hq array
      have none := array isArray
      generalize q.elements = us at hq none
      cases us with
      | nil =>
        rw [DataType.Portable] at hq
        exact hq
      | cons u us => cases none
    · exact Verdict.invalid_ne_pure h
  · exact Bool.false_ne_true (hx.symm.trans (integer_pure h).1)
  · rename_i integer _
    exact Bool.false_ne_true (hx.symm.trans (scalar_pure (fun e => integer e) h).1)
  · rename_i t type
    rw [type, DataType.Portable] at hq
    unfold bare at h
    rw [nothing, hq.1] at h
    split at h
    · rename_i absurd
      cases absurd
    · split at h
      · exact Verdict.raise_ne_pure h
      · rename_i isRecord
        have none := record (Bool.eq_false_iff.2 isRecord)
        rw [type] at none
        dsimp only at none
        rw [hq.1, hq.2] at none
        cases none
  · rename_i type
    rw [type, DataType.Portable] at hq
    exact hq

/-- The clean form of a record whose entries have gone through their properties without objection
has the keys of the entries that did, and under each the clean form of what was stored of it. -/
theorem cleanedEntries_portable (P : s.Portable) (hstr : (s.type t).isStructured = true)
    (tidy : es.Tidy) (run : admitted s strict t es [] es = pure out) :
    (cleanedEntries s t out).Tidy ∧
      (cleanedEntries s t out).keys = es.keys.filter (s.type t).keeps ∧
      ∀ key ∈ (cleanedEntries s t out).keys, ∃ p, (s.type t).through? key = some p ∧
        stored s strict p.slot (es.get key) = pure (out.get key) ∧
          (cleanedEntries s t out).get key = cleaned s (some p.slot) (out.get key) := by
  obtain ⟨keys, each⟩ := admitted_portable P tidy run
  refine ⟨tidy_cleanedEntries (admitted_keys run tidy.defined_mem tidy).1,
    keys_cleanedEntries.trans (by rw [keys]), fun key hkey => ?_⟩
  obtain ⟨there, keeps⟩ := List.mem_filter.1 (keys_cleanedEntries ▸ hkey)
  have persists := (keeps_iff.1 keeps).2
  cases hp : (s.type t).through? key with
  | none =>
    rw [hp] at persists
    exact absurd (persists.symm.trans (P.closed t hstr)) Bool.noConfusion
  | some p =>
    refine ⟨p, rfl, each key (keys ▸ there) p hp, ?_⟩
    rw [get_cleanedEntries keeps, ModelType.slot?_eq_through?, hp]
    rfl

theorem suits_of_admitted (P : s.Portable) (hstr : (s.type t).isStructured = true)
    (tidy : es.Tidy) (run : admitted s strict t es [] es = pure out)
    (each : ∀ e ∈ es, ∀ p y, (s.type t).property? e.1 = some p →
      stored s strict p.slot e.2 = pure y → Suits s p.slot (cleaned s (some p.slot) y)) :
    ∀ e ∈ cleanedEntries s t out, ∃ p, (s.type t).through? e.1 = some p ∧ Suits s p.slot e.2 := by
  obtain ⟨tidy', keys, found⟩ := cleanedEntries_portable P hstr tidy run
  intro e he
  have hkey : e.1 ∈ (cleanedEntries s t out).keys := List.mem_map.2 ⟨e, he, rfl⟩
  obtain ⟨p, hp, first, get⟩ := found e.1 hkey
  obtain ⟨e', he', own⟩ := List.mem_map.1 (List.mem_filter.1 (keys ▸ hkey)).1
  rw [Entries.get_of_mem tidy'.nodup he] at get
  rw [← own, Entries.get_of_mem tidy.nodup he'] at first
  rw [get]
  refine ⟨p, hp, ?_⟩
  have := each e' he' p _ (own ▸ (ModelType.through?_eq_some.1 hp).2) first
  rwa [own] at this

/-- The clean form of what was stored without objection suits the slot, if the numbers are finite
and no element is undefined. -/
theorem suits_of_stored (P : s.Portable) (hq : q.Portable s) (hx : x.Proper)
    (finite : ∀ v ∈ x.leaves, v.isFinite = true) (full : .undefined ∉ x.leaves)
    (h : stored s strict q x = pure y) : Suits s q (cleaned s (some q) y) := by
  induction hx generalizing q y with
  | leaf v =>
    rw [cleaned_of_isLeaf (stored_kind h).1]
    exact suits_of_leaf hq (finite v List.mem_cons_self)
      (fun e => full (e ▸ List.mem_cons_self)) h
  | @array xs items ih =>
    cases hi : q.items? with
    | none =>
      rw [stored, hi] at h
      -- a portable slot with no item type takes no array
      exact absurd h (idle_ne_pure hq rfl (fun _ => hi) fun e => Bool.noConfusion e)
    | some e =>
      obtain ⟨ys, hys, rfl⟩ := (stored_array_pure hi).1 h
      rw [cleaned, Option.bind_some, Slot.element?_of_items? hi, cleanedItems_eq]
      refine .array hi fun z hz => ?_
      obtain ⟨y, hy, rfl⟩ := List.mem_map.1 hz
      obtain ⟨x, hx, first⟩ := exists_of_storedItems hys hy
      exact ih x hx (hq.items hi) (fun v hv => finite v (mem_leaves_array hx hv))
        (fun hv => full (mem_leaves_array hx hv)) first
  | @record es tidy fields ih =>
    cases hf : q.form? s with
    | none =>
      rw [stored, hf] at h
      exact absurd h (idle_ne_pure hq rfl (fun e => Bool.noConfusion e) fun _ => hf)
    | some t =>
      obtain ⟨allowed, out, run, rfl⟩ := (stored_record_pure hf).1 h
      -- every entry left is of a declared property, and suits it by the induction
      have found := suits_of_admitted P (Slot.isStructured_of_form? hf) tidy run
        fun e he p y hp first => ih e he (P.declared hp)
          (fun v hv => finite v (mem_leaves_record he hv))
          (fun hv => full (mem_leaves_record he hv)) first
      have tidy' := tidy_cleanedEntries (s := s) (t := t)
        (admitted_keys run tidy.defined_mem tidy).1
      rw [cleaned, Option.bind_some, Slot.shape?_of_form? hf]
      refine .record hf allowed tidy' (fun e he => ?_) fun e he p hp => ?_
      · obtain ⟨p, hp, -⟩ := found e he
        exact ⟨p, hp⟩
      · obtain ⟨p', hp', suits⟩ := found e he
        cases hp.symm.trans hp'
        exact suits

/-! ### Reading back -/

/-- With dates cut to whole milliseconds. -/
def floored (x : Tree) : Tree :=
  x.mapLeaves fun v =>
    match v with
    | .date t => .date t.floorMillis
    | _ => v

theorem stored_own (type : q.type = .builtin b) (simple : b.isScalar = true)
    (own : b.accepts v = true) : stored s strict q (leaf v) = pure (leaf v) := by
  have accepted : ∀ {b : Builtin}, b.accepts v = true →
      scalar strict q.name b (leaf v) = pure (leaf v) := by
    intro b own
    unfold scalar
    dsimp only
    rw [own, Bool.or_true, if_pos rfl]
  rw [stored]
  unfold idle
  rw [type]
  cases b with
  | object => cases simple
  | array => cases simple
  | integer =>
    cases v with
    | number n =>
      have integral : n.isIntegral = true := own
      dsimp only
      unfold integer
      rw [accepted rfl, pure_bind]
      dsimp only
      rw [if_pos integral]
    | _ => cases own
  | _ => exact accepted own

/-- A value without parts is equal to itself, unless it is a NaN. -/
theorem equal_leaf_self (scalar : v.isScalar = true) (finite : v.isFinite = true) :
    (leaf v).Equal (leaf v) := by
  refine .leaf ?_
  cases v with
  | number n =>
    refine Binary64.equal_self_iff.2 fun e => ?_
    rw [e] at finite
    cases finite
  | string s => exact beq_self_eq_true s
  | bool b => exact beq_self_eq_true b
  | date t => exact beq_self_eq_true t
  | undefined => rfl
  | null => rfl
  | _ => cases scalar

/-- Values of the declared type that are no dates are stored as they are once they have gone through
JSON, and zero loses its sign. -/
theorem reread_number {n : Binary64} (type : q.type = .builtin b) (simple : b.isScalar = true)
    (own : b.accepts (.number n) = true) (finite : n.isFinite = true) :
    ∃ m, stored s false q (leaf (.number n)).reread = pure (leaf (.number m)) ∧
      (leaf (.number m)).Equal (leaf (.number n)) ∧ (leaf (.number n)).Equal (leaf (.number m)) := by
  rw [reread_leaf]
  unfold Value.json Interchange.numberTree
  dsimp only
  cases zero : n.isZero with
  | true =>
    have accepts : b.accepts (.number .zero) = true := by
      cases b with
      | integer => exact Binary64.isIntegral_zero
      | number => rfl
      | object => cases simple
      | array => cases simple
      | _ => cases own
    have equal : Binary64.zero.equal n = true := by
      cases n with
      | finite negative x =>
        have hx : x = .zero := beq_iff_eq.1 zero
        rw [hx]
        simp [Binary64.zero, Binary64.equal]
      | _ => cases zero
    refine ⟨.zero, stored_own type simple accepts, .leaf equal, .leaf ?_⟩
    exact (Binary64.equal_comm _ _).trans equal
  | false =>
    rw [if_neg Bool.false_ne_true, finite, if_pos rfl]
    have same := equal_leaf_self (v := .number n) rfl finite
    exact ⟨n, stored_own type simple own, same, same⟩

theorem reread_own (type : q.type = .builtin b) (simple : b.isScalar = true)
    (own : b.accepts v = true) (finite : v.isFinite = true)
    (dates : ∀ t, v = .date t → t.IsWritable) :
    ∃ w, stored s false q (leaf v).reread = pure (leaf w) ∧
      (leaf w).Equal (leaf v).floored ∧ (leaf v).floored.Equal (leaf w) := by
  cases v with
  | number n =>
    obtain ⟨m, again, equal⟩ := reread_number (s := s) type simple own finite
    exact ⟨_, again, equal⟩
  | string text =>
    have same := equal_leaf_self (v := .string text) rfl rfl
    exact ⟨_, by rw [reread_leaf]; exact stored_own type simple own, same, same⟩
  | bool b =>
    have same := equal_leaf_self (v := .bool b) rfl rfl
    exact ⟨_, by rw [reread_leaf]; exact stored_own type simple own, same, same⟩
  | date t =>
    have same := equal_leaf_self (v := .date t.floorMillis) rfl rfl
    refine ⟨_, ?_, same, same⟩
    obtain rfl : b = .date := by
      cases b <;> first | rfl | exact absurd simple Bool.false_ne_true | cases own
    have read : Builtin.date.converted? (.string t.isoMillis) = some (.date t.floorMillis) := by
      show (Instant.parse? t.isoMillis).map Value.date = _
      rw [Instant.parse?_isoMillis (dates t rfl)]
      rfl
    have text : (leaf (.date t)).reread = leaf (.string t.isoMillis) := reread_leaf _
    rw [text, stored]
    unfold idle
    rw [type]
    show scalar false q.name .date (leaf (.string t.isoMillis)) = _
    rw [scalar_there rfl, show Builtin.date.taken? false (.string t.isoMillis) =
      Builtin.date.converted? (.string t.isoMillis) from rfl, read]
    rfl
  | _ => cases b <;> first | exact absurd simple Bool.false_ne_true | cases own

theorem Equal.map {f g : Tree → Tree} {xs : List Tree} (each : ∀ x ∈ xs, (f x).Equal (g x)) :
    (Tree.array (xs.map f)).Equal (.array (xs.map g)) := by
  refine .array (by rw [List.length_map, List.length_map]) fun p hp => ?_
  rw [List.zip_map', List.mem_map] at hp
  obtain ⟨x, hx, rfl⟩ := hp
  exact each x hx

/-- Records are equal when they have the same keys, and under each are equal trees. -/
theorem Equal.perm {es fs : Entries} (tidy : es.keys.Nodup) (keys : es.keys.Perm fs.keys)
    (fields : ∀ key ∈ es.keys, (fs.get key).Equal (es.get key)) :
    (Tree.record es).Equal (.record fs) := by
  have size := keys.length_eq
  rw [Entries.keys, Entries.keys, List.length_map, List.length_map] at size
  refine .record size (fun e he => keys.mem_iff.1 (List.mem_map.2 ⟨e, he, rfl⟩)) fun e he => ?_
  have := fields e.1 (List.mem_map.2 ⟨e, he, rfl⟩)
  rwa [Entries.get_of_mem tidy he] at this

/-- Fields that go through properties are all there once they have gone through JSON, in another
order. -/
theorem reread_known (nodup : es.keys.Nodup)
    (known : ∀ e ∈ es, ∃ p, (s.type t).through? e.1 = some p) :
    ∃ es' : Entries, (record es).reread = record es' ∧
      es'.Perm (es.map fun e => (e.1, e.2.reread)) := by
  obtain ⟨es', reread, perm⟩ := reread_record nodup
  refine ⟨es', reread, ?_⟩
  rwa [List.filter_eq_self.2 fun e he => ?_] at perm
  obtain ⟨p, hp⟩ := known e he
  rw [(ModelType.through?_eq_some.1 hp).1]
  rfl

/-- The fields of a record go through their properties once they have gone through JSON, if each of
them is stored.  The clean form of what is stored then is equal, if each is. -/
theorem reread_fields (P : s.Portable) (tidy : es.Tidy)
    (known : ∀ e ∈ es, ∃ p, (s.type t).through? e.1 = some p)
    (each : ∀ e ∈ es, ∀ p, (s.type t).through? e.1 = some p →
      ∃ z, stored s false p.slot e.2.reread = pure z ∧
        (cleaned s (some p.slot) z).Equal e.2.floored ∧
          e.2.floored.Equal (cleaned s (some p.slot) z)) :
    ∃ (es' : Entries) (out : Entries), (record es).reread = record es' ∧ es'.Tidy ∧
      admitted s false t es' [] es' = pure out ∧
        (record (cleanedEntries s t out)).Equal (record es).floored ∧
          (record es).floored.Equal (record (cleanedEntries s t out)) := by
  obtain ⟨es', reread, perm⟩ := reread_known tidy.nodup known
  have tidy' := tidy_reread tidy.nodup perm
  have keys : es'.keys.Perm es.keys := by
    have moved := perm.map Prod.fst
    rwa [List.map_map] at moved
  have stores : ∀ e' ∈ es', ∀ p, (s.type t).through? e'.1 = some p →
      ∃ z, stored s false p.slot e'.2 = pure z := fun e' he' p hp => by
    obtain ⟨e, he, rfl⟩ := List.mem_map.1 (perm.mem_iff.1 he')
    obtain ⟨z, again, -⟩ := each e he p hp
    exact ⟨z, again⟩
  have others : ∀ e' ∈ es', (s.type t).through? e'.1 = none → isReserved e'.1 = false →
      (s.type t).allowsAdditional = true := fun e' he' none => by
    obtain ⟨e, he, rfl⟩ := List.mem_map.1 (perm.mem_iff.1 he')
    obtain ⟨p, hp⟩ := known e he
    cases none.symm.trans hp
  obtain ⟨out, run⟩ := admitted_of_stored stores others [] es'
  obtain ⟨keysOut, values⟩ := admitted_portable P tidy' run
  have keeps : ∀ key ∈ es.keys, (s.type t).keeps key = true := fun key hkey => by
    obtain ⟨e, he, rfl⟩ := List.mem_map.1 hkey
    obtain ⟨p, hp⟩ := known e he
    exact P.keeps hp
  have keysClean : (cleanedEntries s t out).keys.Perm es.keys := by
    rwa [keys_cleanedEntries, keysOut, List.filter_eq_self.2 fun key hkey =>
      keeps key (keys.mem_iff.1 hkey)]
  -- under each key stands the clean form of what was stored of its field
  have fields : ∀ key ∈ es.keys,
      ((cleanedEntries s t out).get key).Equal (es.get key).floored ∧
        (es.get key).floored.Equal ((cleanedEntries s t out).get key) := fun key hkey => by
    obtain ⟨e, he, rfl⟩ := List.mem_map.1 hkey
    obtain ⟨p, hp⟩ := known e he
    obtain ⟨z, again, equal⟩ := each e he p hp
    have stored := values e.1 (keys.mem_iff.2 hkey) p hp
    rw [Entries.get_of_mem tidy'.nodup (perm.mem_iff.2 (List.mem_map.2 ⟨e, he, rfl⟩))] at stored
    rw [get_cleanedEntries (keeps _ hkey), ModelType.slot?_eq_through?, hp, Entries.get_of_mem
      tidy.nodup he, ← Verdict.pure_injective (again.symm.trans stored)]
    exact equal
  have floored : ∀ key ∈ es.keys, (mapLeavesUnder _ es).get key = (es.get key).floored :=
    fun key hkey => get_mapLeavesUnder hkey
  refine ⟨es', out, reread, tidy', run, ?_, ?_⟩
  · refine Equal.perm (keysClean.nodup_iff.2 tidy.nodup) (keys_mapLeavesUnder.symm ▸ keysClean)
      fun key hkey => ?_
    have hkey := keysClean.mem_iff.1 hkey
    rw [floored key hkey]
    exact (fields key hkey).2
  · refine Equal.perm (keys_mapLeavesUnder.symm ▸ tidy.nodup)
      (keys_mapLeavesUnder.symm ▸ keysClean.symm) fun key hkey => ?_
    have hkey := keys_mapLeavesUnder ▸ hkey
    rw [floored key hkey]
    exact (fields key hkey).1

/-- **What suits a slot is stored again without objection once it has gone through JSON**, if its
dates can be written.  Its clean form is the same as before, with dates cut to whole
milliseconds. -/
theorem Suits.reread (P : s.Portable) (suits : Suits s q x)
    (dates : ∀ t, .date t ∈ x.leaves → t.IsWritable) :
    ∃ z, stored s false q x.reread = pure z ∧ (cleaned s (some q) z).Equal x.floored ∧
      x.floored.Equal (cleaned s (some q) z) := by
  induction suits with
  | null =>
    have same : (Tree.leaf .null).Equal (.leaf .null) := equal_leaf_self rfl rfl
    refine ⟨Tree.leaf .null, ?_, same, same⟩
    rw [show (Tree.leaf .null).reread = .leaf .null from reread_leaf _, stored]
    exact idle_nothing rfl
  | @leaf q b v type scalar own finite =>
    obtain ⟨w, again, equal⟩ := reread_own (s := s) type scalar own finite fun t e =>
      dates t (e ▸ List.mem_cons_self)
    exact ⟨_, again, equal⟩
  | @array q e xs items each ih =>
    choose! z again there back using fun x hx => ih x hx fun t ht => dates t (mem_leaves_array hx ht)
    have first : storedItems s false e (xs.map Tree.reread) = pure (xs.map z) := by
      rw [storedItems_pure, List.forall₂_map_left_iff, List.forall₂_map_right_iff,
        List.forall₂_same]
      exact again
    have clean : cleaned s (some q) (.array (xs.map z)) =
        .array (xs.map fun x => cleaned s (some e) (z x)) := by
      rw [cleaned, Option.bind_some, Slot.element?_of_items? items, cleanedItems_eq, List.map_map]
      rfl
    have floored : (Tree.array xs).floored = .array (xs.map Tree.floored) := by
      rw [Tree.floored, mapLeaves, mapLeavesOf_eq]
      rfl
    refine ⟨.array (xs.map z), ?_, ?_, ?_⟩
    · rw [reread_array, stored, items]
      dsimp only
      rw [first, pure_bind]
    · rw [clean, floored]
      exact Equal.map there
    · rw [clean, floored]
      exact Equal.map back
  | @record q t es form allowed tidy known each ih =>
    obtain ⟨es', out, reread, -, run, equal⟩ := reread_fields P tidy known fun e he p hp =>
      ih e he p hp fun t ht => dates t (mem_leaves_record he ht)
    refine ⟨.record out, ?_, ?_⟩
    · rw [reread, stored, form]
      dsimp only
      rw [if_pos allowed, run, pure_bind]
    · rw [cleaned, Option.bind_some, Slot.shape?_of_form? form]
      exact equal

end Tree

end Overlay
