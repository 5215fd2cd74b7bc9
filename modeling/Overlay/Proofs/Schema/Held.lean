import Overlay.Proofs.Schema.Built

/-!
# What types keep in use

Constants of enumerations and values that hooks load stay in use as long as the types do.  What runs
on behalf of a type finds all that it refers to among `Schema.heldValues`.

Most of these are out of reach without hooks: the rules of an enumeration refer to its constants,
and nothing else runs.  `Schema.usedValues` are those that can come into play unless a method is
called.
-/

namespace Overlay

variable {v : Value}

/-! ### What can come into play -/

/-- The values that a rule may use: a program may call whatever the types declare. -/
def Rule.usedValues (s : Schema) : Rule → List Value
  | .hook actions => Hook.heldValues actions ++ s.heldValues
  | .constants cs => cs.heldValues

/-- The values that a way of wrapping may use. -/
def Wrapping.usedValues (s : Schema) : Wrapping → List Value
  | .custom rule => rule.usedValues s
  | _ => []

/-- The values that the accessors of a property may use, if it has any. -/
def Property.usedValues (s : Schema) (p : Property) : List Value :=
  if p.getter.isNone && p.setter.isNone then [] else p.heldValues ++ s.heldValues

/-- The values that may be used on behalf of a type, its methods aside. -/
def ModelType.usedValues (s : Schema) (t : ModelType) : List Value :=
  (t.properties.layers.flatMap fun layer => layer.entries.flatMap fun e => e.2.usedValues s)
    ++ t.init.elim [] (Rule.usedValues s) ++ t.wrap.usedValues s
    ++ t.coerce.elim [] (Rule.usedValues s)

/-- The values that the types may use, their methods aside. -/
def Schema.usedValues (s : Schema) : List Value :=
  (s.models.toList.flatMap (ModelType.usedValues s))
    ++ if s.adapters.isEmpty then [] else s.heldValues

theorem Extension.HookFree.usedValues_wrap {ext : Extension} (free : ext.HookFree) (s : Schema) :
    ext.wrap.usedValues s = [] := by
  cases hw : ext.wrap with
  | custom rule => exact absurd hw (free.wrap rule)
  | _ => rfl

namespace ModelType

variable {t : ModelType} {s : Schema}

theorem held_of_init {rule : Rule} (h : t.init = some rule) (hv : v ∈ rule.heldValues) :
    v ∈ t.heldValues := by
  simp [heldValues, h, hv]

theorem held_of_wrap {rule : Rule} (h : t.wrap = .custom rule) (hv : v ∈ rule.heldValues) :
    v ∈ t.heldValues := by
  simp [heldValues, Wrapping.heldValues, h, hv]

theorem held_of_coerce {rule : Rule} (h : t.coerce = some rule) (hv : v ∈ rule.heldValues) :
    v ∈ t.heldValues := by
  simp [heldValues, h, hv]

theorem used_of_property? {key : String} {p : Property} (hp : t.property? key = some p)
    (hv : v ∈ p.usedValues s) : v ∈ t.usedValues s := by
  obtain ⟨layer, hl, k, hk⟩ := PropertyLayers.lists_of_get? hp
  have : v ∈ t.properties.layers.flatMap fun layer =>
      layer.entries.flatMap fun e => e.2.usedValues s :=
    List.mem_flatMap.2 ⟨layer, hl, List.mem_flatMap.2 ⟨(k, p), hk, hv⟩⟩
  simp [usedValues, this]

theorem used_of_init {rule : Rule} (h : t.init = some rule) (hv : v ∈ rule.usedValues s) :
    v ∈ t.usedValues s := by
  simp [usedValues, h, hv]

theorem used_of_wrap {rule : Rule} (h : t.wrap = .custom rule) (hv : v ∈ rule.usedValues s) :
    v ∈ t.usedValues s := by
  simp [usedValues, Wrapping.usedValues, h, hv]

theorem used_of_coerce {rule : Rule} (h : t.coerce = some rule) (hv : v ∈ rule.usedValues s) :
    v ∈ t.usedValues s := by
  simp [usedValues, h, hv]

end ModelType

namespace Schema

variable {s : Schema} {t : TypeId}

theorem type_mem (s : Schema) (t : TypeId) : s.type t ∈ s.models.toList ∨ s.type t = .root := by
  unfold type
  cases ht : s.models[t.index]? with
  | none => exact Or.inr rfl
  | some type => exact Or.inl (Array.mem_toList_iff.2 (Array.mem_of_getElem? ht))

theorem held_of_type (hv : v ∈ (s.type t).heldValues) : v ∈ s.heldValues := by
  rcases s.type_mem t with mem | root
  · exact List.mem_append_left _ (List.mem_flatMap.2 ⟨_, mem, hv⟩)
  · rw [root] at hv
    cases hv

theorem used_of_type (hv : v ∈ (s.type t).usedValues s) : v ∈ s.usedValues := by
  rcases s.type_mem t with mem | root
  · exact List.mem_append_left _ (List.mem_flatMap.2 ⟨_, mem, hv⟩)
  · rw [root] at hv
    cases hv

theorem held_of_adapter? {a : AdapterId} {adapter : AdapterType} (h : s.adapter? a = some adapter)
    (hv : v ∈ Hook.heldValues adapter.wrap) : v ∈ s.heldValues := by
  have mem : adapter ∈ s.adapters.toList := Array.mem_toList_iff.2 (Array.mem_of_getElem? h)
  exact List.mem_append_right _ (List.mem_flatMap.2 ⟨adapter, mem, hv⟩)

theorem used_of_initRules {rule : Rule} (h : rule ∈ s.initRules t) (hv : v ∈ rule.usedValues s) :
    v ∈ s.usedValues := by
  obtain ⟨u, -, hu⟩ := List.mem_filterMap.1 h
  exact used_of_type (ModelType.used_of_init hu hv)

theorem used_of_adapter? {a : AdapterId} {adapter : AdapterType} (h : s.adapter? a = some adapter)
    (hv : v ∈ s.heldValues) : v ∈ s.usedValues := by
  have some : s.adapters.isEmpty = false := by
    refine Bool.eq_false_iff.2 fun none => ?_
    rw [adapter?, Array.isEmpty_iff.1 none] at h
    cases h
  exact List.mem_append_right _ (by rw [some]; exact hv)

theorem held_of_callee? {name : String} {callee : Callee} (h : s.callee? t name = some callee)
    (hv : v ∈ callee.heldValues) : v ∈ s.heldValues := by
  obtain ⟨u, -, hu⟩ := List.exists_of_findSome?_eq_some h
  refine held_of_type (t := u) ?_
  have lookup : ∀ {β : Type} {es : List (String × β)} {b : β}, es.lookup name = some b →
      (name, b) ∈ es := by
    intro β es b hb
    obtain ⟨before, after, he, -⟩ := List.lookup_eq_some_iff.1 hb
    rw [he]
    exact List.mem_append_right _ List.mem_cons_self
  rcases Option.or_eq_some_iff.1 hu with hm | ⟨-, ha⟩
  · obtain ⟨method, found, rfl⟩ := Option.map_eq_some_iff.1 hm
    have mem : v ∈ (s.type u).methods.flatMap fun e => e.2.heldValues :=
      List.mem_flatMap.2 ⟨_, List.mem_reverse.1 (lookup found), hv⟩
    simp [ModelType.heldValues, mem]
  · have mem : v ∈ (s.type u).accessors.flatMap fun e => e.2.heldValues :=
      List.mem_flatMap.2 ⟨_, lookup ha, hv⟩
    simp [ModelType.heldValues, mem]

theorem held_of_used (hv : v ∈ s.usedValues) : v ∈ s.heldValues := by
  have rule : ∀ {t : ModelType} {rule : Rule}, t ∈ s.models.toList →
      (∀ w ∈ rule.heldValues, w ∈ t.heldValues) → v ∈ rule.usedValues s → v ∈ s.heldValues := by
    intro t rule ht held hv
    have kept : ∀ w ∈ rule.heldValues, w ∈ s.heldValues := fun w hw =>
      List.mem_append_left _ (List.mem_flatMap.2 ⟨t, ht, held w hw⟩)
    cases rule with
    | hook actions => exact (List.mem_append.1 hv).elim (kept v) id
    | constants cs => exact kept v hv
  rcases List.mem_append.1 hv with hv | hv
  · obtain ⟨t, ht, hv⟩ := List.mem_flatMap.1 hv
    simp only [ModelType.usedValues, List.mem_append] at hv
    rcases hv with ((hv | hv) | hv) | hv
    · obtain ⟨layer, hl, hv⟩ := List.mem_flatMap.1 hv
      obtain ⟨e, he, hv⟩ := List.mem_flatMap.1 hv
      unfold Property.usedValues at hv
      split at hv
      · cases hv
      · refine (List.mem_append.1 hv).elim (fun hv => ?_) id
        have : v ∈ t.properties.layers.flatMap fun layer =>
            layer.entries.flatMap fun e => e.2.heldValues :=
          List.mem_flatMap.2 ⟨layer, hl, List.mem_flatMap.2 ⟨e, he, hv⟩⟩
        have : v ∈ t.heldValues := by simp [ModelType.heldValues, this]
        exact List.mem_append_left _ (List.mem_flatMap.2 ⟨t, ht, this⟩)
    · cases hr : t.init with
      | none => simp [hr] at hv
      | some r => exact rule ht (fun w hw => ModelType.held_of_init hr hw) (by simpa [hr] using hv)
    · cases hr : t.wrap with
      | custom r =>
        exact rule ht (fun w hw => ModelType.held_of_wrap hr hw)
          (by simpa [hr, Wrapping.usedValues] using hv)
      | _ => simp [hr, Wrapping.usedValues] at hv
    · cases hr : t.coerce with
      | none => simp [hr] at hv
      | some r =>
        exact rule ht (fun w hw => ModelType.held_of_coerce hr hw) (by simpa [hr] using hv)
  · split at hv
    · cases hv
    · exact hv

/-- Without hooks, what may be used are the constants of the enumerations. -/
theorem Built.constant_of_used (h : s.Built) (hv : v ∈ s.usedValues) :
    ∃ t cs, (s.type t).wrap = .custom (.constants cs) ∧ ∃ c ∈ cs.all, v = .model c.model := by
  have noAdapters : s.adapters.isEmpty = true := by rw [h.adapters]; rfl
  rw [usedValues, noAdapters, if_pos rfl, List.append_nil] at hv
  obtain ⟨type, mem, hv⟩ := List.mem_flatMap.1 hv
  obtain ⟨i, hi⟩ := Array.mem_iff_getElem?.1 (Array.mem_toList_iff.1 mem)
  obtain rfl : s.type ⟨i⟩ = type := by rw [Schema.type, hi]; rfl
  have constant : ∀ {cs : Constants}, v ∈ cs.heldValues → ∃ c ∈ cs.all, v = .model c.model :=
    fun hv => by
      obtain ⟨c, hc, rfl⟩ := List.mem_map.1 hv
      exact ⟨c, hc, rfl⟩
  simp only [ModelType.usedValues, List.mem_append] at hv
  rcases hv with ((hv | hv) | hv) | hv
  · -- the properties have no accessors
    obtain ⟨layer, hl, hv⟩ := List.mem_flatMap.1 hv
    obtain ⟨⟨key, p⟩, hp, hv⟩ := List.mem_flatMap.1 hv
    have plain := (h.soundAt ⟨i⟩).listed p ⟨layer, hl, key, hp⟩
    rw [Property.usedValues, plain.getter, plain.setter] at hv
    cases hv
  all_goals
    rcases h.made ⟨i⟩ with made | ⟨_, _, _, _, made, ⟨free, -⟩ | ⟨name, cs⟩, -⟩
    · rw [made] at hv
      cases hv
    · simp only [made, ModelType.extended, free.init, free.coerce, free.usedValues_wrap] at hv
      cases hv
    · refine ⟨⟨i⟩, cs, by rw [made]; rfl, constant ?_⟩
      rw [made] at hv
      exact hv

end Schema

end Overlay
