import Overlay.Proofs.Plain.Storing
import Overlay.Proofs.Schema.Keys
import Overlay.Proofs.Schema.Stratified

/-!
# Types without hooks

A type may be free of hooks in a schema where others are not.  What the operations on it come to is
then a matter of the types that it leads to, which are those that its properties are declared with,
and so on.

* `Schema.Free`, `Schema.FreeProperty` : types and properties without hooks, declared with such
  types only;
* `Schema.Throughout` : what holds of a type and of all types that it leads to;
* `Schema.Calm` : operations on a type run nothing but the rules of enumerations;
* `Schema.Keyed` : the storage keys of a type, and of all that it leads to, belong to one property
  each.
-/

namespace Overlay

/-- The type brings no hooks, and its properties are declared with such types only. -/
inductive Schema.Free (s : Schema) : DataType → Prop
  /-- A built-in type. -/
  | builtin (b : Builtin) : Free s (.builtin b)
  /-- A model type whose values run nothing. -/
  | model {t : TypeId} (rules : (s.type t).RuleFree) (init : s.initRules t = [])
      (getters : ∀ key p, (s.type t).property? key = some p → p.getter = none)
      (setters : ∀ key p, (s.type t).property? key = some p → p.setter = none)
      (types : ∀ key p u, (s.type t).property? key = some p → u ∈ p.type :: p.elements →
        Free s u) : Free s (.model t)

/-- The slot is declared with such types. -/
def Schema.FreeSlot (s : Schema) (q : Slot) : Prop := ∀ u ∈ q.type :: q.elements, s.Free u

/-- The property has no accessors of its own and is declared with such types, which are there. -/
structure Schema.FreeProperty (s : Schema) (p : Property) : Prop where
  /-- It is read from the record. -/
  getter : p.getter = none
  /-- It is written to the record. -/
  setter : p.setter = none
  /-- Its types bring no hooks. -/
  slot : s.FreeSlot p.slot
  /-- They are there. -/
  known : ∀ u, .model u ∈ p.type :: p.elements → u.index < s.models.size

/-- The model type of this data type is of a kind, and so are those that it leads to. -/
inductive Schema.Throughout (s : Schema) (P : TypeId → Prop) : DataType → Prop
  /-- A built-in type leads nowhere. -/
  | builtin (b : Builtin) : Throughout s P (.builtin b)
  /-- A model type leads to those that its properties are declared with. -/
  | model {t : TypeId} (here : P t)
      (types : ∀ key p u, (s.type t).property? key = some p → u ∈ p.type :: p.elements →
        Throughout s P u) : Throughout s P (.model t)

/-- Operations on the type run nothing but the rules of enumerations. -/
structure Schema.Calm (s : Schema) (t : TypeId) : Prop where
  /-- Its values meet no others. -/
  values : (s.type t).Calm
  /-- Its new instances meet no others. -/
  init : ∀ rule ∈ s.initRules t, rule.OfConstants
  /-- Its properties are written to the record. -/
  setters : ∀ key p, (s.type t).property? key = some p → p.setter = none

/-- Storage keys belong to one property each, in the type and wherever it leads. -/
def Schema.Keyed (s : Schema) (x : DataType) : Prop :=
  s.Throughout (fun t => (s.type t).WellKeyed) x

/-- So they do wherever the slot leads. -/
def Schema.KeyedSlot (s : Schema) (q : Slot) : Prop := ∀ u ∈ q.type :: q.elements, s.Keyed u

namespace Schema

variable {s : Schema} {t : TypeId} {p : Property} {q e : Slot} {x : DataType} {key : String}
  {P : TypeId → Prop}

/-! ### Ways through the types -/

namespace Throughout

theorem here (all : s.Throughout P (.model t)) : P t := by
  cases all
  assumption

theorem property (all : s.Throughout P (.model t)) (hp : (s.type t).property? key = some p) :
    ∀ u ∈ p.type :: p.elements, s.Throughout P u := by
  cases all with
  | model _ types => exact fun u => types key p u hp

end Throughout

theorem Keyed.wellKeyed (keyed : s.Keyed (.model t)) : (s.type t).WellKeyed :=
  Throughout.here keyed

theorem Keyed.slot (keyed : s.Keyed (.model t)) (hp : (s.type t).property? key = some p) :
    s.KeyedSlot p.slot :=
  keyed.property hp

theorem KeyedSlot.element (keyed : s.KeyedSlot q) (he : q.items? = some e) : s.KeyedSlot e := by
  intro u hu
  refine keyed u (List.mem_cons_of_mem _ ?_)
  rw [(Slot.declares_of_items? he).2]
  exact hu

theorem KeyedSlot.model (keyed : s.KeyedSlot q) (type : q.type = .model t) : s.Keyed (.model t) :=
  type ▸ keyed q.type List.mem_cons_self

theorem FreeSlot.element (free : s.FreeSlot q) (he : q.items? = some e) : s.FreeSlot e := by
  intro u hu
  refine free u (List.mem_cons_of_mem _ ?_)
  rw [(Slot.declares_of_items? he).2]
  exact hu

theorem FreeSlot.model (free : s.FreeSlot q) (type : q.type = .model t) : s.Free (.model t) :=
  type ▸ free q.type List.mem_cons_self

/-! ### Free types -/

namespace Free

theorem ruleFree (free : s.Free (.model t)) : (s.type t).RuleFree := by
  cases free
  assumption

theorem initRules (free : s.Free (.model t)) : s.initRules t = [] := by
  cases free
  assumption

theorem throughout (free : s.Free x) (all : ∀ t, s.Free (.model t) → P t) : s.Throughout P x := by
  induction free with
  | builtin b => exact .builtin b
  | model rules init getters setters types ih =>
    exact .model (all _ (.model rules init getters setters types)) ih

theorem calm (free : s.Free x) : s.Throughout s.Calm x := by
  refine free.throughout fun t free => ?_
  cases free with
  | model rules init _ setters _ =>
    refine ⟨⟨fun rule hr => ?_, fun rule hr => ?_⟩, fun rule hr => ?_, setters⟩
    · cases rules.coerce.symm.trans hr
    · rcases rules.wrap with e | e <;> cases e.symm.trans hr
    · rw [init] at hr
      cases hr

/-- A property of a free type is free. -/
theorem property (free : s.Free (.model t)) (hs : s.Stratified)
    (hp : (s.type t).property? key = some p) : s.FreeProperty p := by
  have there : t.index < s.models.size :=
    index_lt_of_isStructured (ModelType.isStructured_of_property? hp)
  cases free with
  | model _ _ getters setters types =>
    refine ⟨getters key p hp, setters key p hp, fun u => types key p u hp, fun u hu => ?_⟩
    exact Nat.lt_trans ((hs.placedAt t).earlier p (PropertyLayers.lists_of_get? hp) u hu) there

end Free

theorem FreeProperty.element {q : Property} (free : s.FreeProperty p)
    (hq : p.elementProperty? = some q) : s.FreeProperty q := by
  obtain ⟨he, getter, setter⟩ := Property.elementProperty?_eq_some hq
  have mem : ∀ u ∈ q.type :: q.elements, u ∈ p.type :: p.elements := fun u hu => by
    rw [he]
    exact List.mem_cons_of_mem _ hu
  exact ⟨getter, setter, fun u hu => free.slot u (mem u hu), fun u hu => free.known u (mem _ hu)⟩

theorem Built.free (hs : s.Built) (rules : ∀ t, (s.type t).RuleFree) (t : TypeId) :
    s.Free (.model t) := by
  obtain ⟨i⟩ := t
  induction i using Nat.strongRecOn with
  | ind i ih =>
    have plain : ∀ {key p}, (s.type ⟨i⟩).property? key = some p → p.PlainBelow i :=
      (hs.soundAt ⟨i⟩).plainBelow
    refine .model (rules _) (initRules_of_free rules _) (fun _ _ hp => (plain hp).getter)
      (fun _ _ hp => (plain hp).setter) fun key p u hp hu => ?_
    have below := (plain hp).types u hu
    cases u with
    | builtin b => exact .builtin b
    | model u => exact ih u.index below
    | adapter a => exact below.elim

theorem Built.freeProperty (hs : s.Built) (rules : ∀ t, (s.type t).RuleFree) {i : Nat}
    (plain : p.PlainBelow i) (hi : i ≤ s.models.size) : s.FreeProperty p := by
  refine ⟨plain.getter, plain.setter, fun u hu => ?_, fun u hu =>
    Nat.lt_of_lt_of_le (plain.earlier u hu) hi⟩
  have below := plain.types u hu
  cases u with
  | builtin b => exact .builtin b
  | model t => exact hs.free rules t
  | adapter a => exact below.elim

/-- What holds of all types of a schema without hooks holds wherever they lead. -/
theorem Built.throughout (hs : s.Built) (all : ∀ t, P t) (t : TypeId) :
    s.Throughout P (.model t) := by
  obtain ⟨i⟩ := t
  induction i using Nat.strongRecOn with
  | ind i ih =>
    refine .model (all _) fun key p u hp hu => ?_
    have below := ((hs.soundAt ⟨i⟩).plainBelow hp).types u hu
    cases u with
    | builtin b => exact .builtin b
    | model u => exact ih u.index below
    | adapter a => exact below.elim

theorem Built.initRules (hs : s.Built) (t : TypeId) :
    ∀ rule ∈ s.initRules t, rule.OfConstants := by
  intro rule hr
  obtain ⟨u, -, hu⟩ := List.mem_filterMap.1 hr
  exact (hs.soundAt u).init rule hu

namespace Regular

theorem modelFree (hs : s.Regular) (t : TypeId) : s.Free (.model t) := hs.built.free hs.free t

theorem modelKeyed (hs : s.Regular) (t : TypeId) : s.Keyed (.model t) :=
  hs.built.throughout hs.keyed t

end Regular

theorem Built.calm (hs : s.Built) (t : TypeId) : s.Throughout s.Calm (.model t) :=
  hs.throughout (fun t => ⟨(hs.soundAt t).toCalm, hs.initRules t,
    fun _ _ hp => ((hs.soundAt t).plainBelow hp).setter⟩) t

end Schema

end Overlay
