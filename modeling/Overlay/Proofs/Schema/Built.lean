import Overlay.Enumeration

/-!
# Schemas without hooks

A `Schema.Built` schema comes about by deriving types that bring no hooks and by making
enumerations.  A type can only be declared with types that are there already, so the types of such
a schema are stratified by their places.

* `Schema.Built.soundAt` : a type runs nothing but the rules of enumerations, and its properties
  are declared with types at earlier places;
* `PropertyLayers.lists_of_get?` : what a look-up finds is listed in one of the layers.
-/

namespace Overlay

/-! ### Properties that a type lists -/

/-- The property is listed in one of the layers. -/
def PropertyLayers.Lists (ps : PropertyLayers) (p : Property) : Prop :=
  ∃ layer ∈ ps.layers, ∃ key, (key, p) ∈ layer.entries

namespace PropertyLayer

theorem mem_of_get? {layer : PropertyLayer} {key : String} {p : Property}
    (h : layer.get? key = some p) : (key, p) ∈ layer.entries := by
  obtain ⟨before, after, he, -⟩ := List.lookup_eq_some_iff.1 h
  rw [he]
  exact List.mem_append_right _ List.mem_cons_self

theorem mem_put {key : String} {p : Property} {es : List (String × Property)}
    {e : String × Property} (h : e ∈ put key p es) : e ∈ es ∨ e = (key, p) := by
  induction es with
  | nil => exact Or.inr (List.mem_singleton.1 h)
  | cons e' es ih =>
    obtain ⟨k, q⟩ := e'
    by_cases hk : k = key
    · rw [put, if_pos hk, List.mem_cons, hk] at h
      exact h.elim Or.inr fun h => Or.inl (List.mem_cons_of_mem _ h)
    · rw [put, if_neg hk, List.mem_cons] at h
      rcases h with rfl | h
      · exact Or.inl List.mem_cons_self
      · exact (ih h).imp_left (List.mem_cons_of_mem _)

theorem mem_insert {layer : PropertyLayer} {p : Property} {e : String × Property}
    (h : e ∈ (layer.insert p).entries) : e ∈ layer.entries ∨ e.2 = p := by
  unfold insert at h
  dsimp only at h
  split at h
  · exact (mem_put h).imp_right fun he => by rw [he]
  · rcases mem_put h with h | he
    · exact (mem_put h).imp_right fun he => by rw [he]
    · exact Or.inr (by rw [he])

theorem mem_ofList {ps : List Property} {e : String × Property}
    (h : e ∈ (ofList ps).entries) : e.2 ∈ ps := by
  have key : ∀ (ps : List Property) (layer : PropertyLayer),
      e ∈ (ps.foldl insert layer).entries → e ∈ layer.entries ∨ e.2 ∈ ps := by
    intro ps
    induction ps with
    | nil => intro layer h; exact Or.inl h
    | cons p ps ih =>
      intro layer h
      rcases ih _ h with h | h
      · exact (mem_insert h).imp_right fun he => List.mem_cons.2 (Or.inl he)
      · exact Or.inr (List.mem_cons_of_mem _ h)
  exact (key ps empty h).resolve_left List.not_mem_nil

end PropertyLayer

namespace PropertyLayers

theorem lists_of_get? {ps : PropertyLayers} {key : String} {p : Property}
    (h : ps.get? key = some p) : ps.Lists p := by
  obtain ⟨layer, hl, hp⟩ := List.exists_of_findSome?_eq_some h
  exact ⟨layer, hl, key, PropertyLayer.mem_of_get? hp⟩

theorem lists_push {ps : PropertyLayers} {qs : List Property} {p : Property}
    (h : (ps.push (.ofList qs)).Lists p) : p ∈ qs ∨ ps.Lists p := by
  obtain ⟨layer, hl, key, hp⟩ := h
  rcases List.mem_cons.1 hl with rfl | hl
  · exact Or.inl (PropertyLayer.mem_ofList hp)
  · exact Or.inr ⟨layer, hl, key, hp⟩

end PropertyLayers

/-! ### Sound types -/

/-- A type at one of the first places. -/
def DataType.Below (i : Nat) : DataType → Prop
  | .builtin _ => True
  | .model t => t.index < i
  | .adapter _ => False

instance (i : Nat) : (t : DataType) → Decidable (t.Below i)
  | .builtin _ => .isTrue trivial
  | .model t => inferInstanceAs (Decidable (t.index < i))
  | .adapter _ => .isFalse id

/-- A property without accessors of its own, declared with types at the first places. -/
structure Property.PlainBelow (p : Property) (i : Nat) : Prop where
  /-- It is read from the record. -/
  getter : p.getter = none
  /-- It is written to the record. -/
  setter : p.setter = none
  /-- Its type and the types of its elements are there already. -/
  types : ∀ t ∈ p.type :: p.elements, t.Below i

instance (p : Property) (i : Nat) : Decidable (p.PlainBelow i) :=
  decidable_of_iff
    (p.getter = none ∧ p.setter = none ∧ ∀ t ∈ p.type :: p.elements, t.Below i)
    ⟨fun ⟨hg, hs, ht⟩ => ⟨hg, hs, ht⟩, fun ⟨hg, hs, ht⟩ => ⟨hg, hs, ht⟩⟩

theorem DataType.Below.mono {t : DataType} {i j : Nat} (h : t.Below i) (hij : i ≤ j) :
    t.Below j := by
  cases t with
  | builtin b => exact h
  | model u => exact Nat.lt_of_lt_of_le h hij
  | adapter a => exact h

theorem Property.PlainBelow.mono {p : Property} {i j : Nat} (h : p.PlainBelow i) (hij : i ≤ j) :
    p.PlainBelow j :=
  ⟨h.getter, h.setter, fun t ht => (h.types t ht).mono hij⟩

theorem Property.PlainBelow.earlier {p : Property} {i : Nat} (h : p.PlainBelow i) (u : TypeId)
    (hu : .model u ∈ p.type :: p.elements) : u.index < i :=
  h.types (.model u) hu

theorem Property.elementProperty?_eq_some {p q : Property} (hq : p.elementProperty? = some q) :
    p.elements = q.type :: q.elements ∧ q.getter = none ∧ q.setter = none := by
  unfold Property.elementProperty? at hq
  split at hq
  · cases hq
  · rename_i he
    cases hq
    exact ⟨he, rfl, rfl⟩

theorem Property.PlainBelow.element {p q : Property} {i : Nat} (hp : p.PlainBelow i)
    (hq : p.elementProperty? = some q) :
    q.PlainBelow i ∧ q.elements.length + 1 = p.elements.length := by
  obtain ⟨he, getter, setter⟩ := Property.elementProperty?_eq_some hq
  refine ⟨⟨getter, setter, fun u hu => hp.types u ?_⟩, by rw [he, List.length_cons]⟩
  rw [he]
  exact List.mem_cons_of_mem _ hu

/-- The rule of an enumeration. -/
def Rule.OfConstants (rule : Rule) : Prop := ∃ cs, rule = .constants cs

/-- A type at a place is declared with earlier ones. -/
structure ModelType.PlacedAt (t : ModelType) (i : Nat) : Prop where
  /-- It derives from an earlier type. -/
  base : ∀ b, t.base = some b → b.index < i
  /-- Every layer lists the properties of one declaration. -/
  layers : ∀ layer ∈ t.properties.layers, ∃ ps, layer = .ofList ps
  /-- The model types that properties are declared with are earlier ones. -/
  earlier : ∀ p, t.properties.Lists p → ∀ u, .model u ∈ p.type :: p.elements → u.index < i

/-- Values of the type meet no rules but those of enumerations. -/
structure ModelType.Calm (t : ModelType) : Prop where
  /-- Not in coercion. -/
  coerce : ∀ rule, t.coerce = some rule → rule.OfConstants
  /-- Not in wrapping. -/
  wrap : ∀ rule, t.wrap = .custom rule → rule.OfConstants

/-- What a type at a place may be made of when it has no hooks. -/
structure ModelType.SoundAt (t : ModelType) (i : Nat) : Prop extends t.PlacedAt i, t.Calm where
  /-- New instances run nothing but the rule of an enumeration. -/
  init : ∀ rule, t.init = some rule → rule.OfConstants
  /-- An instance unwraps to its data. -/
  unwrap : t.unwrap = none
  /-- The properties are plain. -/
  listed : ∀ p, t.properties.Lists p → p.PlainBelow i

/-- An extension that brings no hooks. -/
structure Extension.HookFree (ext : Extension) : Prop where
  /-- Nothing runs on new instances. -/
  init : ext.init = none
  /-- Wrapping is standard or disabled. -/
  wrap : ∀ rule, ext.wrap ≠ .custom rule
  /-- An instance unwraps to its data. -/
  unwrap : ext.unwrap = none
  /-- Values are not coerced. -/
  coerce : ext.coerce = none

namespace Schema

/-- The schemas that come about by deriving types without hooks and by making enumerations. -/
inductive Built : Schema → Prop
  /-- The root alone. -/
  | initial : Built .initial
  /-- A type that brings no hooks and is declared with types that are there. -/
  | derive {s s' : Schema} {base t : TypeId} {ext : Extension} {scope : Scope}
      {ps : List Property} (before : Built s) (known : base.index < s.models.size)
      (free : ext.HookFree) (declared : declareAll scope ext.properties = .ok ps)
      (plain : ∀ p ∈ ps, p.PlainBelow s.models.size)
      (result : s.derive base ext scope = .ok (t, s')) : Built s'
  /-- An enumeration. -/
  | enumerate {s s' : Schema} {spec : Enumeration.Spec} {e : Enumeration} {h h' : Heap}
      (before : Built s) (result : Enumeration.define spec s h = .ok (e, s', h')) : Built s'

theorem type_addModel (s : Schema) (t : ModelType) (u : TypeId) :
    (s.addModel t).2.type u = if u.index = s.models.size then t else s.type u := by
  simp only [type, addModel, Array.getElem?_push]
  split <;> rfl

/-- A place that does not exist holds another root. -/
theorem type_of_size_le {s : Schema} {t : TypeId} (ht : s.models.size ≤ t.index) :
    s.type t = .root := by
  rw [type, Array.getElem?_eq_none ht]
  rfl

theorem derive_schema {s s' : Schema} {base t : TypeId} {ext : Extension} {scope : Scope}
    {ps : List Property} (declared : declareAll scope ext.properties = .ok ps)
    (result : s.derive base ext scope = .ok (t, s')) :
    s' = (s.addModel (.extended base (s.type base) ext ps)).2 := by
  simp only [derive, declared, bind, Except.bind, pure, Except.pure] at result
  exact (Prod.ext_iff.1 (Except.ok.inj result)).2.symm

theorem type_root (u : TypeId) : initial.type u = .root := by
  unfold type initial
  rw [List.getElem?_toArray]
  cases u.index <;> rfl

end Schema

namespace Enumeration

variable {spec : Spec} {s s' : Schema} {h h' : Heap} {e : Enumeration}

/-- Making an enumeration adds its instances, and then the type with their rules. -/
theorem define_ok (result : define spec s h = .ok (e, s', h')) :
    (spec.values.map Prod.fst).Nodup ∧
      e = ⟨s.nextModel, (addInstances s.nextModel spec.values h).1, spec.upperCased⟩ ∧
      s' = (s.addModel (.extended .root (s.type .root) (extension spec.name e.constants) [])).2 ∧
      h' = (addInstances s.nextModel spec.values h).2 := by
  unfold define at result
  split at result
  · cases result
  · split at result
    · cases result
    · rename_i unique
      cases result
      exact ⟨(duplicate?_eq_none_iff.1 unique).1, rfl, rfl, rfl⟩

theorem define_schema (result : define spec s h = .ok (e, s', h')) :
    s' = (s.addModel (.extended .root (s.type .root) (extension spec.name e.constants) [])).2 :=
  (define_ok result).2.2.1

end Enumeration

namespace ModelType

theorem placedAt_root (i : Nat) : root.PlacedAt i where
  base := nofun
  layers := nofun
  earlier := fun _ ⟨_, h, _⟩ => nomatch h

theorem soundAt_root (i : Nat) : root.SoundAt i where
  toPlacedAt := placedAt_root i
  toCalm := ⟨nofun, nofun⟩
  init := nofun
  unwrap := rfl
  listed := fun _ ⟨_, h, _⟩ => nomatch h

theorem PlacedAt.mono {t : ModelType} {i j : Nat} (h : t.PlacedAt i) (hij : i ≤ j) :
    t.PlacedAt j where
  base := fun b hb => Nat.lt_of_lt_of_le (h.base b hb) hij
  layers := h.layers
  earlier := fun p hp u hu => Nat.lt_of_lt_of_le (h.earlier p hp u hu) hij

theorem SoundAt.mono {t : ModelType} {i j : Nat} (h : t.SoundAt i) (hij : i ≤ j) : t.SoundAt j where
  toPlacedAt := h.toPlacedAt.mono hij
  toCalm := h.toCalm
  init := h.init
  unwrap := h.unwrap
  listed := fun p hp => (h.listed p hp).mono hij

theorem SoundAt.plainBelow {t : ModelType} {i : Nat} (h : t.SoundAt i) {key : String}
    {p : Property} (hp : t.property? key = some p) : p.PlainBelow i :=
  h.listed p (PropertyLayers.lists_of_get? hp)

/-- A derived type has the layers of its base and perhaps one more. -/
theorem lists_extended {baseId : TypeId} {base : ModelType} {ext : Extension} {ps : List Property}
    {p : Property} (h : (extended baseId base ext ps).properties.Lists p) :
    p ∈ ps ∨ base.properties.Lists p := by
  simp only [extended] at h
  split at h
  · exact Or.inr h
  · exact PropertyLayers.lists_push h

theorem placedAt_extended {baseId : TypeId} {base : ModelType} {ext : Extension}
    {ps : List Property} {i : Nat} (hb : base.PlacedAt i) (hi : baseId.index < i)
    (earlier : ∀ p ∈ ps, ∀ u, .model u ∈ p.type :: p.elements → u.index < i) :
    (extended baseId base ext ps).PlacedAt i where
  base := fun b h => by cases h; exact hi
  layers := fun layer h => by
    simp only [extended] at h
    split at h
    · exact hb.layers layer h
    · rcases List.mem_cons.1 h with rfl | h
      · exact ⟨ps, rfl⟩
      · exact hb.layers layer h
  earlier := fun p h => (lists_extended h).elim (earlier p) (hb.earlier p)

theorem soundAt_extended {baseId : TypeId} {base : ModelType} {ext : Extension}
    {ps : List Property} {i : Nat} (hb : base.SoundAt i) (hi : baseId.index < i)
    (init : ∀ rule, ext.init = some rule → rule.OfConstants)
    (coerce : ∀ rule, ext.coerce = some rule → rule.OfConstants)
    (wrap : ∀ rule, ext.wrap = .custom rule → rule.OfConstants)
    (unwrap : ext.unwrap = none) (plain : ∀ p ∈ ps, p.PlainBelow i) :
    (extended baseId base ext ps).SoundAt i where
  toPlacedAt := placedAt_extended hb.toPlacedAt hi fun p hp => (plain p hp).earlier
  toCalm := ⟨coerce, wrap⟩
  init := init
  unwrap := unwrap
  listed := fun p h => (lists_extended h).elim (plain p) (hb.listed p)

end ModelType

namespace Schema

variable {s : Schema}

theorem size_addModel (t : ModelType) : (s.addModel t).2.models.size = s.models.size + 1 :=
  Array.size_push t

/-- Deriving a type with declarations that use no names. -/
theorem Built.extend (h : s.Built) (base : TypeId) (ext : Extension) {ps : List Property}
    (known : base.index < s.models.size) (free : ext.HookFree)
    (declared : declareAll .none ext.properties = .ok ps)
    (plain : ∀ p ∈ ps, p.PlainBelow s.models.size) :
    (s.addModel (.extended base (s.type base) ext ps)).2.Built := by
  have result : s.derive base ext .none =
      .ok (s.addModel (.extended base (s.type base) ext ps)) := by
    simp only [Schema.derive, declared, bind, Except.bind, pure, Except.pure]
  exact h.derive known free declared plain result

theorem Built.size_pos (h : s.Built) : 0 < s.models.size := by
  cases h with
  | initial => exact Nat.one_pos
  | derive _ _ _ declared _ result =>
    rw [derive_schema declared result, size_addModel]
    exact Nat.succ_pos _
  | enumerate _ result =>
    rw [Enumeration.define_schema result, size_addModel]
    exact Nat.succ_pos _

/-- Every type of a schema that is built without hooks is sound at its place. -/
theorem Built.soundAt (h : s.Built) (t : TypeId) : (s.type t).SoundAt t.index := by
  induction h generalizing t with
  | initial => exact type_root t ▸ ModelType.soundAt_root _
  | @derive s s' base u ext scope ps _ known free declared plain result ih =>
    rw [derive_schema declared result, type_addModel]
    split
    · rename_i ht
      rw [ht]
      refine ModelType.soundAt_extended ((ih base).mono (Nat.le_of_lt known)) known ?_ ?_ ?_
        free.unwrap plain
      · rw [free.init]; exact nofun
      · rw [free.coerce]; exact nofun
      · exact fun rule hr => absurd hr (free.wrap rule)
    · exact ih t
  | @enumerate s s' spec e h h' before result ih =>
    rw [Enumeration.define_schema result, type_addModel]
    split
    · rename_i ht
      exact ModelType.soundAt_extended ((ih .root).mono (Nat.zero_le _)) (ht ▸ before.size_pos)
        (fun rule hr => ⟨e.constants, (Option.some.inj hr).symm⟩)
        (fun rule hr => ⟨e.constants, (Option.some.inj hr).symm⟩)
        (fun rule hr => ⟨e.constants, (Wrapping.custom.inj hr).symm⟩) rfl nofun
    · exact ih t

theorem Built.plainBelow_size (h : s.Built) {t : TypeId} {key : String} {p : Property}
    (hp : (s.type t).property? key = some p) : p.PlainBelow s.models.size := by
  by_cases ht : t.index < s.models.size
  · exact ((h.soundAt t).mono (Nat.le_of_lt ht)).plainBelow hp
  · rw [type_of_size_le (Nat.le_of_not_lt ht)] at hp
    exact nomatch hp

theorem Built.adapters (h : s.Built) : s.adapters = #[] := by
  induction h with
  | initial => rfl
  | @derive s s' base u ext scope ps _ known free declared plain result ih =>
    rw [derive_schema declared result]
    exact ih
  | enumerate _ result ih =>
    rw [Enumeration.define_schema result]
    exact ih

/-! ### One type after the other -/

/-- An extension that brings no hooks, or the one that makes an enumeration of the root. -/
inductive Extends (s : Schema) : TypeId → Extension → List Property → Prop
  /-- A type without hooks. -/
  | free {base : TypeId} {ext : Extension} {ps : List Property} (free : ext.HookFree)
      (plain : ∀ p ∈ ps, p.PlainBelow s.models.size) : Extends s base ext ps
  /-- An enumeration. -/
  | constants (name : Option String) (cs : Constants) :
      Extends s .root (Enumeration.extension name cs) []

/-- Induction on the types of a schema, in the order in which they are added. -/
theorem Built.types_induction {P : Schema → Prop} (h : s.Built) (initial : P .initial)
    (extended : ∀ (s : Schema) (base : TypeId) (ext : Extension) (ps : List Property), s.Built →
      base.index < s.models.size → s.Extends base ext ps → P s →
        P (s.addModel (.extended base (s.type base) ext ps)).2) : P s := by
  induction h with
  | initial => exact initial
  | derive before known free declared plain result ih =>
    rw [derive_schema declared result]
    exact extended _ _ _ _ before known (.free free plain) ih
  | enumerate before result ih =>
    rw [Enumeration.define_schema result]
    exact extended _ _ _ _ before before.size_pos (.constants _ _) ih

theorem Built.root (h : s.Built) : s.type .root = .root := by
  refine h.types_induction (P := fun s => s.type .root = .root) (type_root _) ?_
  intro s base ext ps before _ _ ih
  have old : TypeId.root.index ≠ s.models.size := Nat.ne_of_lt before.size_pos
  rw [type_addModel, if_neg old]
  exact ih

/-- A type is the root, or derives from another one in one of the two ways. -/
theorem Built.made (h : s.Built) (t : TypeId) :
    s.type t = .root ∨ ∃ base parent ext ps, s.type t = .extended base parent ext ps ∧
      s.Extends base ext ps ∧ (base = .root → parent = .root) := by
  refine h.types_induction (P := fun s => s.type t = .root ∨ ∃ base parent ext ps,
    s.type t = .extended base parent ext ps ∧ s.Extends base ext ps ∧
      (base = .root → parent = .root)) (Or.inl (type_root t)) ?_
  intro s base ext ps before _ kind ih
  have later : ∀ {base ext ps} {new : ModelType}, s.Extends base ext ps →
      (s.addModel new).2.Extends base ext ps := by
    rintro _ _ _ new (⟨free, plain⟩ | ⟨name, cs⟩)
    · refine .free free fun p hp => (plain p hp).mono ?_
      rw [size_addModel]
      exact Nat.le_succ _
    · exact .constants name cs
  rw [type_addModel]
  split
  · exact Or.inr ⟨base, _, ext, ps, rfl, later kind, fun e => e ▸ before.root⟩
  · refine ih.imp_right ?_
    rintro ⟨base, parent, ext, ps, made, kind, root⟩
    exact ⟨base, parent, ext, ps, made, later kind, root⟩

theorem Built.coerce_eq_none (h : s.Built) {t : TypeId}
    (ht : ∀ rule, (s.type t).wrap ≠ .custom rule) : (s.type t).coerce = none := by
  rcases h.made t with made | ⟨_, _, _, _, made, ⟨free, -⟩ | ⟨name, cs⟩, -⟩
  · rw [made]
    rfl
  · rw [made]
    exact free.coerce
  · rw [made] at ht
    exact absurd rfl (ht (.constants cs))

theorem Built.plainBelow_of_callee? (h : s.Built) {t : TypeId} {name : String} {p : Property}
    (hp : s.callee? t name = some (.read p) ∨ s.callee? t name = some (.write p)) :
    p.PlainBelow s.models.size := by
  have own : ∀ {u : TypeId} {callee : Callee}, (callee = .read p ∨ callee = .write p) →
      ownCallee? (s.type u) name = some callee → p.PlainBelow s.models.size := by
    intro u callee hc hu
    have found : (s.type u).accessors.lookup name = some callee := by
      rcases Option.or_eq_some_iff.1 hu with hm | ⟨-, ha⟩
      · obtain ⟨method, -, rfl⟩ := Option.map_eq_some_iff.1 hm
        rcases hc with hc | hc <;> cases hc
      · exact ha
    obtain ⟨before, after, he, -⟩ := List.lookup_eq_some_iff.1 found
    have mem : (name, callee) ∈ (s.type u).accessors := by
      rw [he]
      exact List.mem_append_right _ List.mem_cons_self
    rcases h.made u with made | ⟨_, _, _, ps, made, kind, -⟩
    · rw [made] at mem
      cases mem
    · have listed : p ∈ ps := by
        rw [made] at mem
        obtain ⟨q, hq, mem⟩ := List.mem_flatMap.1 mem
        simp only [Property.accessors, List.mem_cons, Prod.mk.injEq, List.not_mem_nil, or_false]
          at mem
        rcases mem with ⟨-, rfl⟩ | ⟨-, rfl⟩ <;> rcases hc with hc | hc <;> cases hc <;> exact hq
      cases kind with
      | free _ plain => exact plain p listed
      | constants => cases listed
  rcases hp with hp | hp
  all_goals
    obtain ⟨u, -, hu⟩ := List.exists_of_findSome?_eq_some hp
    exact own (by simp) hu

end Schema

end Overlay
