import Mathlib.Data.List.Forall2
import Overlay.Proofs.Plain.Storing
import Overlay.Proofs.Schema.Keys

/-!
# Records that are stored without objection

When all entries of a record have gone through their properties and nothing was objected to, the
fields are those that were there before and the storage keys that were missing, at the end.  Under a
storage key stands the stored form of the last entry of its property.  Under any other key of a
property stands the entry itself, or its stored form if that has parts.

* `Tree.admitted_keys` : the keys and their order;
* `Tree.admitted_stored` : what stands under the storage keys;
* `Tree.admitted_seen` : what stands under the other keys;
* `Tree.admitted_of_stored` : nothing is objected to if every entry can be stored.
-/

namespace Overlay

namespace Verdict

variable {α β : Type}

/-- Nothing was objected to on the way to a result if no part objected. -/
theorem bind_eq_pure {V : Verdict α} {next : α → Verdict β} {b : β} (h : V >>= next = pure b) :
    ∃ a, V = pure a ∧ next a = pure b := by
  obtain ⟨es, e | a⟩ := V
  · cases (congrArg Verdict.result h : (.error e : Except Error β) = .ok b)
  · rw [bind_of_ok (v := ⟨es, .ok a⟩) rfl] at h
    obtain ⟨rfl, rest⟩ := List.append_eq_nil_iff.1 (congrArg Verdict.signalled h)
    have result : (next a).result = .ok b := congrArg Verdict.result h
    refine ⟨a, rfl, ?_⟩
    rcases hn : next a with ⟨es', result'⟩
    rw [hn] at rest result
    obtain rfl : es' = [] := rest
    obtain rfl : result' = .ok b := result
    rfl

theorem pure_injective {a b : α} (h : (pure a : Verdict α) = pure b) : a = b :=
  Except.ok.inj (congrArg Verdict.result h)

theorem raise_ne_pure {e : Error} {a : α} : (raise e : Verdict α) ≠ pure a := fun h => by
  cases (congrArg Verdict.result h : (.error e : Except Error α) = .ok a)

theorem signal_ne_pure {e : Error} {y : Tree} : signal e ≠ pure y := by
  unfold signal
  split
  · exact fun h => by cases (congrArg Verdict.signalled h : [e] = [])
  · exact raise_ne_pure

theorem invalid_ne_pure {name : Option String} {x y : Tree} : invalid name x ≠ pure y :=
  signal_ne_pure

end Verdict

/-- The property that the entry under a key goes through. -/
def ModelType.through? (t : ModelType) (key : String) : Option Property :=
  if isReserved key then none else t.property? key

theorem ModelType.slot?_eq_through? (t : ModelType) (key : String) :
    t.slot? key = (t.through? key).map Property.slot := by
  unfold slot? through?
  split <;> rfl

theorem ModelType.through?_eq_some {t : ModelType} {key : String} {p : Property} :
    t.through? key = some p ↔ isReserved key = false ∧ t.property? key = some p := by
  unfold through?
  split <;> simp_all

theorem Entries.Tidy.reveal {es : Entries} {key : String} {y : Tree} {written : List String}
    (tidy : es.Tidy) : (Entries.reveal written key y es).Tidy := by
  refine ⟨keys_reveal.symm ▸ tidy.nodup, fun k hk => ?_⟩
  have there := tidy.defined k (by rwa [keys_reveal] at hk)
  unfold Entries.reveal
  split
  · exact there
  · rename_i hy
    rw [get_replace]
    split
    · cases y <;> first | rfl | exact absurd rfl hy
    · exact there

namespace Tree

variable {s : Schema} {strict : Bool} {q : Slot} {name : Option String} {b : Builtin} {t : TypeId}
  {p : Property} {v : Value} {x y : Tree} {key k : String}

/-! ### Trees whose parts stay as they are -/

theorem scalar_pure (hb : b ≠ .integer) (h : scalar strict name b x = pure y) :
    x.isLeaf = true ∧ y.isLeaf = true ∧ y.isUndefined = x.isUndefined ∧
      scalar strict name b y = pure y := by
  cases x with
  | array xs => exact absurd h Verdict.invalid_ne_pure
  | record es => exact absurd h Verdict.invalid_ne_pure
  | leaf v =>
    have again := h
    unfold scalar at h
    dsimp only at h
    split at h
    · obtain rfl := Verdict.pure_injective h
      exact ⟨rfl, rfl, rfl, again⟩
    · rename_i other
      split at h
      · exact absurd h Verdict.invalid_ne_pure
      · split at h
        · rename_i w hw
          obtain rfl := Verdict.pure_injective h
          have accepts := (Builtin.converted?_accepts hb hw).2
          refine ⟨rfl, rfl, ?_, ?_⟩
          · have hv : v.isUndefined = false := by cases v <;> first | rfl | exact absurd rfl other
            have hw : w.isUndefined = false := by
              cases w <;> first | rfl | (cases b <;> first | cases hw | cases accepts)
            exact hw.trans hv.symm
          · unfold scalar
            dsimp only
            rw [accepts, Bool.or_true, if_pos rfl]
        · exact absurd h Verdict.invalid_ne_pure

theorem integer_pure (h : integer strict name x = pure y) :
    x.isLeaf = true ∧ y.isLeaf = true ∧ y.isUndefined = x.isUndefined ∧
      integer strict name y = pure y := by
  obtain ⟨z, number, rest⟩ := Verdict.bind_eq_pure h
  have kind : Builtin.number ≠ .integer := Builtin.noConfusion
  obtain ⟨hx, hz, undefined, again⟩ := scalar_pure kind number
  -- what comes out is what was checked, and it passes the check again
  have checked : z = y ∧ integer strict name z = pure z := by
    unfold integer
    rw [again, pure_bind]
    split at rest
    · split at rest
      · rename_i n hn
        exact ⟨Verdict.pure_injective rest, if_pos hn⟩
      · exact absurd rest Verdict.invalid_ne_pure
    · exact ⟨Verdict.pure_injective rest, rfl⟩
  obtain ⟨rfl, check⟩ := checked
  exact ⟨hx, hz, undefined, check⟩

theorem bare_pure (h : bare s t name x = pure y) : y = x := by
  unfold bare at h
  split at h
  · exact (Verdict.pure_injective h).symm
  · split at h
    · exact absurd h Verdict.raise_ne_pure
    · split at h
      · exact absurd h Verdict.invalid_ne_pure
      · split at h
        · exact (Verdict.pure_injective h).symm
        · exact absurd h Verdict.raise_ne_pure

theorem idle_leaf (hx : x.isLeaf = true) (h : idle s strict q x = pure y) :
    y.isLeaf = true ∧ y.isUndefined = x.isUndefined ∧ idle s strict q y = pure y := by
  have same : y = x → y.isLeaf = true ∧ y.isUndefined = x.isUndefined ∧
      idle s strict q y = pure y := by
    rintro rfl
    exact ⟨hx, rfl, h⟩
  have stored := h
  unfold idle at stored
  split at stored
  · exact same (Verdict.pure_injective stored).symm
  · split at stored
    · exact same (Verdict.pure_injective stored).symm
    · exact absurd stored Verdict.invalid_ne_pure
  · rename_i type
    unfold idle
    rw [type]
    exact (integer_pure stored).2
  · rename_i b object array integer type
    obtain ⟨-, leaf, undefined, again⟩ := scalar_pure (fun e => integer e) stored
    refine ⟨leaf, undefined, ?_⟩
    unfold idle
    rw [type]
    cases b <;> first | exact again | contradiction
  · exact same (bare_pure stored)
  · exact same (Verdict.pure_injective stored).symm

/-- Of a container only the kind matters, and it is stored as it is. -/
theorem idle_container (hx : x.isLeaf = false) (h : idle s strict q x = pure y) :
    y = x ∧ ∀ z : Tree, z.isLeaf = false → z.isArray = x.isArray → idle s strict q z = pure z := by
  have nothing : ∀ z : Tree, z.isLeaf = false → z.isNothing = false := fun z hz => by
    cases z <;> first | rfl | cases hz
  unfold idle at h ⊢
  split at h
  · exact ⟨(Verdict.pure_injective h).symm, fun _ _ _ => rfl⟩
  · split at h
    · rename_i array
      rw [nothing x hx, Bool.false_or] at array
      refine ⟨(Verdict.pure_injective h).symm, fun z _ hz => if_pos ?_⟩
      rw [hz, array, Bool.or_true]
    · exact absurd h Verdict.invalid_ne_pure
  · exact absurd (integer_pure h).1 (by rw [hx]; exact Bool.false_ne_true)
  · rename_i integer _
    exact absurd (scalar_pure integer h).1 (by rw [hx]; exact Bool.false_ne_true)
  · obtain rfl := bare_pure h
    refine ⟨rfl, fun z hz kind => ?_⟩
    unfold bare at h ⊢
    rw [nothing y hx] at h
    rw [nothing z hz, kind]
    split at h
    · rename_i passed
      rw [if_pos passed]
    · rename_i wraps
      rw [if_neg wraps]
      split at h
      · exact absurd h Verdict.raise_ne_pure
      · split at h
        · exact absurd h Verdict.invalid_ne_pure
        · split at h
          · rename_i array bare allowed
            rw [if_neg array, if_neg bare, if_pos allowed]
          · exact absurd h Verdict.raise_ne_pure
  · exact ⟨(Verdict.pure_injective h).symm, fun _ _ _ => rfl⟩

/-! ### Trees in slots -/

theorem stored_array_pure {e : Slot} {xs : List Tree} (hi : q.items? = some e) :
    stored s strict q (array xs) = pure y ↔
      ∃ ys, storedItems s strict e xs = pure ys ∧ y = array ys := by
  rw [stored, hi]
  constructor
  · intro h
    obtain ⟨ys, items, rest⟩ := Verdict.bind_eq_pure h
    exact ⟨ys, items, (Verdict.pure_injective rest).symm⟩
  · rintro ⟨ys, items, rfl⟩
    dsimp only
    rw [items, pure_bind]

theorem stored_record_pure {es : Entries} (hf : q.form? s = some t) :
    stored s strict q (record es) = pure y ↔ (s.type t).allowsInstances = true ∧
      ∃ out, admitted s strict t es [] es = pure out ∧ y = record out := by
  rw [stored, hf]
  dsimp only
  constructor
  · intro h
    split at h
    · obtain ⟨out, run, rest⟩ := Verdict.bind_eq_pure h
      exact ⟨‹_›, out, run, (Verdict.pure_injective rest).symm⟩
    · exact absurd h Verdict.raise_ne_pure
  · rintro ⟨allowed, out, run, rfl⟩
    rw [if_pos allowed, run, pure_bind]

/-- Leaves are stored as leaves and containers as containers, and what is there is stored as
something that is there.  A stored leaf is stored again as it is. -/
theorem stored_kind (h : stored s strict q x = pure y) :
    y.isLeaf = x.isLeaf ∧ y.isUndefined = x.isUndefined ∧
      (x.isLeaf = true → stored s strict q y = pure y) := by
  -- a container goes to a container, whatever is in it; only leaves are read again
  have container : x.isLeaf = false → y.isLeaf = false → y.isLeaf = x.isLeaf ∧
      y.isUndefined = x.isUndefined ∧ (x.isLeaf = true → stored s strict q y = pure y) := by
    intro hx hy
    have defined : ∀ z : Tree, z.isLeaf = false → z.isUndefined = false := fun z hz => by
      cases z <;> first | rfl | cases hz
    exact ⟨hy.trans hx.symm, (defined y hy).trans (defined x hx).symm,
      fun leaf => absurd (hx.symm.trans leaf) Bool.false_ne_true⟩
  have idled : x.isLeaf = false → idle s strict q x = pure y → y.isLeaf = x.isLeaf ∧
      y.isUndefined = x.isUndefined ∧ (x.isLeaf = true → stored s strict q y = pure y) := by
    intro hx idle
    obtain rfl := (idle_container hx idle).1
    exact container hx hx
  cases x with
  | leaf v =>
    rw [stored] at h
    obtain ⟨leaf, undefined, again⟩ := idle_leaf rfl h
    refine ⟨leaf, undefined, fun _ => ?_⟩
    cases y with
    | leaf w =>
      rw [stored]
      exact again
    | _ => cases leaf
  | array xs =>
    cases hi : q.items? with
    | none =>
      rw [stored, hi] at h
      exact idled rfl h
    | some e =>
      obtain ⟨ys, -, rfl⟩ := (stored_array_pure hi).1 h
      exact container rfl rfl
  | record es =>
    cases hf : q.form? s with
    | none =>
      rw [stored, hf] at h
      exact idled rfl h
    | some t =>
      obtain ⟨-, out, -, rfl⟩ := (stored_record_pure hf).1 h
      exact container rfl rfl

theorem storedItems_pure {e : Slot} {xs ys : List Tree} :
    storedItems s strict e xs = pure ys ↔
      List.Forall₂ (fun x y => stored s strict e x = pure y) xs ys := by
  induction xs generalizing ys with
  | nil =>
    rw [storedItems, List.forall₂_nil_left_iff]
    exact ⟨fun h => (Verdict.pure_injective h).symm, fun h => by rw [h]⟩
  | cons x xs ih =>
    rw [storedItems, List.forall₂_cons_left_iff]
    constructor
    · intro h
      obtain ⟨y, first, h⟩ := Verdict.bind_eq_pure h
      obtain ⟨ys', rest, h⟩ := Verdict.bind_eq_pure h
      exact ⟨y, ys', first, ih.1 rest, (Verdict.pure_injective h).symm⟩
    · rintro ⟨y, ys', first, rest, rfl⟩
      rw [first, ih.2 rest, pure_bind, pure_bind]

theorem exists_of_storedItems {e : Slot} {xs ys : List Tree}
    (h : storedItems s strict e xs = pure ys) (hy : y ∈ ys) :
    ∃ x ∈ xs, stored s strict e x = pure y := by
  have each := storedItems_pure.1 h
  clear h
  induction each with
  | nil => cases hy
  | @cons x _ xs ys first _ ih =>
    rcases List.mem_cons.1 hy with rfl | hy
    · exact ⟨x, List.mem_cons_self, first⟩
    · obtain ⟨x', hx', stored⟩ := ih hy
      exact ⟨x', List.mem_cons_of_mem _ hx', stored⟩

/-! ### Entries -/

/-- What can happen to one entry. -/
theorem admitted_cons {rest : List (String × Tree)} {written : List String} {fields out : Entries}
    (h : admitted s strict t ((key, x) :: rest) written fields = pure out) :
    (∃ p y, (s.type t).through? key = some p ∧ stored s strict p.slot x = pure y ∧
      admitted s strict t rest (p.storageKey :: written)
        (Entries.put p.storageKey y (Entries.reveal written key y fields)) = pure out) ∨
    ((s.type t).through? key = none ∧
      (isReserved key = false → (s.type t).allowsAdditional = true) ∧
        admitted s strict t rest written fields = pure out) := by
  rw [admitted] at h
  unfold ModelType.through?
  cases hk : isReserved key with
  | true =>
    rw [hk] at h
    exact Or.inr ⟨rfl, fun free => Bool.noConfusion free, h⟩
  | false =>
    rw [hk] at h
    cases hp : (s.type t).property? key with
    | some p =>
      rw [hp] at h
      obtain ⟨y, first, h⟩ := Verdict.bind_eq_pure h
      exact Or.inl ⟨p, y, rfl, first, h⟩
    | none =>
      rw [hp] at h
      dsimp only at h
      rw [if_neg Bool.false_ne_true] at h
      split at h
      · exact Or.inr ⟨rfl, fun _ => ‹_›, h⟩
      · obtain ⟨y, signalled, -⟩ := Verdict.bind_eq_pure h
        exact absurd signalled Verdict.signal_ne_pure

/-- Nothing is objected to if all entries of properties can be stored and others are allowed. -/
theorem admitted_of_stored {pending : List (String × Tree)}
    (stores : ∀ e ∈ pending, ∀ p, (s.type t).through? e.1 = some p →
      ∃ y, stored s strict p.slot e.2 = pure y)
    (others : ∀ e ∈ pending, (s.type t).through? e.1 = none → isReserved e.1 = false →
      (s.type t).allowsAdditional = true) (written : List String) (fields : Entries) :
    ∃ out, admitted s strict t pending written fields = pure out := by
  induction pending generalizing written fields with
  | nil => exact ⟨fields, rfl⟩
  | cons e rest ih =>
    obtain ⟨key, x⟩ := e
    have next := ih (fun e he => stores e (List.mem_cons_of_mem _ he))
      fun e he => others e (List.mem_cons_of_mem _ he)
    have stores := stores (key, x) List.mem_cons_self
    have others := others (key, x) List.mem_cons_self
    unfold ModelType.through? at stores others
    rw [admitted]
    cases hk : isReserved key with
    | true => exact next written fields
    | false =>
      rw [hk] at stores others
      cases hp : (s.type t).property? key with
      | some p =>
        obtain ⟨y, hy⟩ := stores p hp
        dsimp only
        rw [if_neg Bool.false_ne_true, hy, pure_bind]
        exact next _ _
      | none =>
        dsimp only
        rw [if_neg Bool.false_ne_true, if_pos (others hp rfl)]
        exact next written fields

theorem stored_of_admitted {pending : List (String × Tree)} {written : List String}
    {fields out : Entries} (h : admitted s strict t pending written fields = pure out) :
    ∀ e ∈ pending, (∀ p, (s.type t).through? e.1 = some p →
        ∃ y, stored s strict p.slot e.2 = pure y) ∧
      ((s.type t).through? e.1 = none → isReserved e.1 = false →
        (s.type t).allowsAdditional = true) := by
  induction pending generalizing written fields with
  | nil => exact fun _ he => absurd he List.not_mem_nil
  | cons e rest ih =>
    obtain ⟨key, x⟩ := e
    intro e he
    rcases admitted_cons h with ⟨p, y, hp, hy, h⟩ | ⟨none, allowed, h⟩
    · rcases List.mem_cons.1 he with rfl | he
      · exact ⟨fun p' hp' => ⟨y, Option.some.inj (hp.symm.trans hp') ▸ hy⟩,
          fun none => nomatch hp.symm.trans none⟩
      · exact ih h e he
    · rcases List.mem_cons.1 he with rfl | he
      · exact ⟨fun p hp => (nomatch none.symm.trans hp), fun _ => allowed⟩
      · exact ih h e he

/-- The storage keys that were missing come after the keys that were there. -/
theorem admitted_keys {pending : List (String × Tree)} {written : List String}
    {fields out : Entries} (h : admitted s strict t pending written fields = pure out)
    (defined : ∀ e ∈ pending, e.2.isUndefined = false) (tidy : fields.Tidy) :
    out.Tidy ∧ (∀ e ∈ pending, ∀ p, (s.type t).through? e.1 = some p → p.storageKey ∈ out.keys) ∧
      ∃ more, out.keys = fields.keys ++ more ∧ ∀ k ∈ more, ∃ e ∈ pending, ∃ p,
        (s.type t).through? e.1 = some p ∧ p.storageKey = k := by
  induction pending generalizing written fields with
  | nil =>
    obtain rfl := Verdict.pure_injective h
    exact ⟨tidy, fun _ he => absurd he List.not_mem_nil, [], (List.append_nil _).symm,
      fun _ hk => absurd hk List.not_mem_nil⟩
  | cons e rest ih =>
    obtain ⟨key, x⟩ := e
    have defined' := fun e he => defined e (List.mem_cons_of_mem _ he)
    rcases admitted_cons h with ⟨p, y, hp, hy, h⟩ | ⟨none, -, h⟩
    · have there : y.isUndefined = false :=
        (stored_kind hy).2.1.trans (defined _ List.mem_cons_self)
      -- revealing under the name given changes what is there and adds no key
      have keys : (Entries.put p.storageKey y (Entries.reveal written key y fields)).keys =
          if p.storageKey ∈ fields.keys then fields.keys else fields.keys ++ [p.storageKey] := by
        rw [Entries.keys_put, there, Entries.keys_reveal]
        rfl
      obtain ⟨tidy', stored, more, hmore, source⟩ := ih h defined' (tidy.reveal.put there)
      rw [keys] at hmore
      refine ⟨tidy', fun e he q hq => ?_, ?_⟩
      · rcases List.mem_cons.1 he with rfl | he
        · cases hp.symm.trans hq
          rw [hmore]
          refine List.mem_append_left _ ?_
          split
          · assumption
          · exact List.mem_append_right _ List.mem_cons_self
        · exact stored e he q hq
      · have source' : ∀ k ∈ more, ∃ e ∈ (key, x) :: rest, ∃ p,
            (s.type t).through? e.1 = some p ∧ p.storageKey = k := fun k hk =>
          let ⟨e, he, q⟩ := source k hk
          ⟨e, List.mem_cons_of_mem _ he, q⟩
        split at hmore
        · exact ⟨more, hmore, source'⟩
        · refine ⟨p.storageKey :: more, by rw [hmore]; simp, fun k hk => ?_⟩
          rcases List.mem_cons.1 hk with rfl | hk
          · exact ⟨(key, x), List.mem_cons_self, p, hp, rfl⟩
          · exact source' k hk
    · obtain ⟨tidy', stored, more, hmore, source⟩ := ih h defined' tidy
      refine ⟨tidy', fun e he q hq => ?_, more, hmore, fun k hk => ?_⟩
      · rcases List.mem_cons.1 he with rfl | he
        · cases none.symm.trans hq
        · exact stored e he q hq
      · obtain ⟨e, he, q⟩ := source k hk
        exact ⟨e, List.mem_cons_of_mem _ he, q⟩

/-- The last of some keys whose entries go through the property. -/
def lastKey? (t : ModelType) (p : Property) (keys : List String) : Option String :=
  (keys.filter fun key => t.through? key = some p).getLast?

theorem lastKey?_cons (t : ModelType) (p : Property) (key : String) (keys : List String) :
    lastKey? t p (key :: keys) =
      (lastKey? t p keys).or (if t.through? key = some p then some key else none) := by
  unfold lastKey?
  by_cases hp : t.through? key = some p
  · rw [List.filter_cons_of_pos (by simpa using hp), if_pos hp, List.getLast?_cons]
    cases (keys.filter fun key => t.through? key = some p).getLast? <;> rfl
  · rw [List.filter_cons_of_neg (by simpa using hp), if_neg hp, Option.or_none]

theorem lastKey?_eq_some {t : ModelType} {keys : List String} (h : lastKey? t p keys = some k) :
    k ∈ keys ∧ t.through? k = some p := by
  have mem := List.mem_filter.1 (List.mem_of_getLast? h)
  exact ⟨mem.1, of_decide_eq_true mem.2⟩

section Keyed

variable {i : Nat} {pending : List (String × Tree)} {written : List String} {fields out : Entries}

/-- No property that can be found is stored under the key. -/
def Unstored (t : ModelType) (k : String) : Prop :=
  ∀ key p, t.property? key = some p → p.storageKey ≠ k

/-- Under the storage key of a property stands the stored form of its last entry. -/
theorem admitted_stored (keyed : (s.type t).WellKeyed) (placed : (s.type t).PlacedAt i)
    (hp : (s.type t).property? k = some p)
    (h : admitted s strict t pending written fields = pure out)
    (nodup : (Entries.keys pending).Nodup) :
    (∀ last, lastKey? (s.type t) p (Entries.keys pending) = some last →
      stored s strict p.slot (Entries.get last pending) = pure (out.get p.storageKey)) ∧
    (lastKey? (s.type t) p (Entries.keys pending) = none →
      out.get p.storageKey = fields.get p.storageKey) := by
  induction pending generalizing written fields with
  | nil =>
    obtain rfl := Verdict.pure_injective h
    exact ⟨nofun, fun _ => rfl⟩
  | cons e rest ih =>
    obtain ⟨key, x⟩ := e
    obtain ⟨fresh, nodup⟩ : key ∉ Entries.keys rest ∧ (Entries.keys rest).Nodup :=
      List.nodup_cons.1 nodup
    have cons : lastKey? (s.type t) p (Entries.keys ((key, x) :: rest)) =
        (lastKey? (s.type t) p (Entries.keys rest)).or
          (if (s.type t).through? key = some p then some key else none) :=
      lastKey?_cons ..
    have other : ∀ {last : String}, lastKey? (s.type t) p (Entries.keys rest) = some last →
        Entries.get last ((key, x) :: rest) = Entries.get last rest := by
      intro last hl
      have differs : last ≠ key := fun e => fresh (e ▸ (lastKey?_eq_some hl).1)
      rw [Entries.get_cons, if_neg differs]
    rw [cons]
    rcases admitted_cons h with ⟨p', y, hp', hy, h⟩ | ⟨none, -, h⟩
    · obtain ⟨some, none⟩ := ih h nodup
      rw [Entries.get_put] at none
      obtain ⟨hkey, found⟩ := ModelType.through?_eq_some.1 hp'
      cases hl : lastKey? (s.type t) p (Entries.keys rest) with
      -- a later entry names the same property: the head is overwritten
      | some last =>
        refine ⟨fun last' e => ?_, nofun⟩
        cases e
        rw [other hl]
        exact some last hl
      | none =>
        by_cases same : p' = p
        · subst same
          rw [if_pos rfl] at none
          rw [hp', if_pos rfl]
          refine ⟨fun last e => ?_, nofun⟩
          cases e
          rw [Entries.get_cons, if_pos rfl, none hl]
          exact hy
        · -- the entry of another property does not touch the storage key
          have apart : p.storageKey ≠ p'.storageKey := fun e =>
            same (keyed.eq_of_storageKey placed hp found e).symm
          have unseen : p.storageKey ≠ key := by
            intro e
            rw [← e, keyed.found_by_storageKey placed hp] at found
            exact same (Option.some.inj found).symm
          rw [if_neg apart, Entries.get_reveal (Or.inr (Or.inr unseen))] at none
          rw [hp', if_neg fun e => same (Option.some.inj e)]
          exact ⟨nofun, fun _ => none hl⟩
    · obtain ⟨some, unchanged⟩ := ih h nodup
      rw [none, if_neg nofun, Option.or_none]
      exact ⟨fun last hl => (other hl).symm ▸ some last hl, unchanged⟩

/-- Under another key stands what was there, or its stored form if that has parts. -/
theorem admitted_seen (hk : Unstored (s.type t) k)
    (h : admitted s strict t pending written fields = pure out)
    (nodup : (Entries.keys pending).Nodup) (there : k ∈ Entries.keys pending → k ∈ fields.keys)
    (before : k ∉ written) :
    (k ∈ Entries.keys pending → ∀ p, (s.type t).through? k = some p →
      ∃ y, stored s strict p.slot (Entries.get k pending) = pure y ∧
        out.get k = (fields.get k).seen y) ∧
    (k ∉ Entries.keys pending ∨ (s.type t).through? k = none → out.get k = fields.get k) := by
  -- no property is stored under `k`, so only its own entry changes what is seen there
  induction pending generalizing written fields with
  | nil =>
    obtain rfl := Verdict.pure_injective h
    exact ⟨fun h => absurd h List.not_mem_nil, fun _ => rfl⟩
  | cons e rest ih =>
    obtain ⟨key, x⟩ := e
    obtain ⟨fresh, nodup⟩ : key ∉ Entries.keys rest ∧ (Entries.keys rest).Nodup :=
      List.nodup_cons.1 nodup
    have mem : k ∈ Entries.keys ((key, x) :: rest) ↔ k = key ∨ k ∈ Entries.keys rest :=
      List.mem_cons
    rw [mem] at there ⊢
    rcases admitted_cons h with ⟨p, y, hp, hy, h⟩ | ⟨none, -, h⟩
    · have unstored : k ≠ p.storageKey := fun e =>
        hk key p (ModelType.through?_eq_some.1 hp).2 e.symm
      have after : k ∉ p.storageKey :: written := by simp [unstored, before]
      have get : Entries.get k (Entries.put p.storageKey y (Entries.reveal written key y fields)) =
          Entries.get k (Entries.reveal written key y fields) := by
        rw [Entries.get_put, if_neg unstored]
      obtain ⟨seen, unchanged⟩ := ih h nodup (fun hmem => by
        rw [Entries.mem_keys_put unstored, Entries.keys_reveal]
        exact there (Or.inr hmem)) after
      rw [get] at seen unchanged
      by_cases own : k = key
      · subst own
        have revealed : Entries.get k (Entries.reveal written k y fields) =
            (fields.get k).seen y := by
          unfold Entries.reveal Tree.seen
          cases hy : y.isLeaf with
          | true => simp
          | false => simp [before, Entries.get_replace, there (Or.inl rfl)]
        rw [revealed] at unchanged
        have result := unchanged (Or.inl fresh)
        refine ⟨fun _ q hq => ⟨y, ?_, result⟩, fun idle => ?_⟩
        · cases hp.symm.trans hq
          rw [Entries.get_cons, if_pos rfl]
          exact hy
        · rcases idle with out | none
          · exact absurd (Or.inl rfl) out
          · cases hp.symm.trans none
      · have hidden : Entries.get k (Entries.reveal written key y fields) = fields.get k :=
          Entries.get_reveal (Or.inr (Or.inr own))
        rw [hidden] at seen unchanged
        rw [Entries.get_cons, if_neg own]
        exact ⟨fun hmem => seen (hmem.resolve_left own),
          fun idle => unchanged (idle.imp_left fun h => (not_or.1 h).2)⟩
    · obtain ⟨seen, unchanged⟩ := ih h nodup (fun hmem => there (Or.inr hmem)) before
      refine ⟨fun hmem p hp => ?_, fun idle => unchanged ?_⟩
      · have other : k ≠ key := fun e => by rw [e, none] at hp; cases hp
        rw [Entries.get_cons, if_neg other]
        exact seen (hmem.resolve_left other) p hp
      · exact idle.imp_left fun h => (not_or.1 h).2

end Keyed

end Tree

end Overlay
