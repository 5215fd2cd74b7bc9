import Overlay.Proofs.Schema.Built

/-!
# Properties and their storage keys

A look-up in the layers of a type finds the last property declared in the most derived layer that
is named or stored under the key.  In a `ModelType.WellKeyed` type no two properties that can be
found share a storage key, and none is stored under the name of another, so a property is found
under its own storage key.

* `PropertyLayers.get?_map_ofList` : a look-up is a search in a list of declarations;
* `ModelType.WellKeyed.found_by_storageKey` : a property that is found is found by its storage key;
* `Schema.Regular` : all types are well-keyed, and none has rules.
-/

namespace Overlay

/-- The property is listed under the key. -/
def Property.answersTo (p : Property) (key : String) : Bool :=
  p.name == key || p.storageKey == key

namespace PropertyLayer

theorem lookup_cons_ite (key k : String) (p : Property) (es : List (String × Property)) :
    ((key, p) :: es).lookup k = if k = key then some p else es.lookup k := by
  rw [List.lookup_cons]
  by_cases hk : k = key
  · rw [if_pos hk, beq_iff_eq.2 hk]
  · rw [if_neg hk, beq_false_of_ne hk]

theorem lookup_put (key k : String) (p : Property) (es : List (String × Property)) :
    (put key p es).lookup k = if k = key then some p else es.lookup k := by
  induction es with
  | nil => exact lookup_cons_ite key k p []
  | cons e es ih =>
    obtain ⟨key', q⟩ := e
    by_cases hk : key' = key
    · rw [put, if_pos hk, lookup_cons_ite, lookup_cons_ite, hk]
      split <;> rfl
    · rw [put, if_neg hk, lookup_cons_ite, lookup_cons_ite, ih]
      by_cases hk' : k = key'
      · rw [if_pos hk', if_pos hk', if_neg fun e => hk (hk'.symm.trans e)]
      · rw [if_neg hk', if_neg hk']

theorem get?_insert (layer : PropertyLayer) (p : Property) (key : String) :
    (layer.insert p).get? key = if p.answersTo key then some p else layer.get? key := by
  have iff : p.answersTo key = true ↔ key = p.name ∨ key = p.storageKey := by
    simp only [Property.answersTo, Bool.or_eq_true, beq_iff_eq, @eq_comm String key]
  simp only [insert, get?, iff]
  by_cases hk : p.storageKey = p.name
  · rw [if_pos hk, lookup_put, hk]
    simp only [or_self]
  · rw [if_neg hk, lookup_put, lookup_put]
    by_cases h : key = p.storageKey
    · rw [if_pos h, if_pos (Or.inr h)]
    · rw [if_neg h]
      simp only [h, or_false]

/-- The last property declared under the key is the one that is found. -/
theorem get?_ofList (ps : List Property) (key : String) :
    (ofList ps).get? key = ps.reverse.find? (·.answersTo key) := by
  have fold : ∀ (ps : List Property) (layer : PropertyLayer),
      (ps.foldl insert layer).get? key =
        (ps.reverse.find? (·.answersTo key)).or (layer.get? key) := by
    intro ps
    induction ps with
    | nil => intro layer; rfl
    | cons p ps ih =>
      intro layer
      rw [List.foldl_cons, ih, get?_insert, List.reverse_cons, List.find?_append, Option.or_assoc]
      congr 1
      by_cases h : p.answersTo key = true <;> simp [h]
  rw [ofList, fold]
  exact Option.or_none

end PropertyLayer

/-- A look-up in layers of declarations searches the most derived layer first, and in each layer
the latest declaration first. -/
theorem PropertyLayers.get?_map_ofList (pss : List (List Property)) (key : String) :
    get? ⟨pss.map .ofList⟩ key = (pss.flatMap List.reverse).find? (·.answersTo key) := by
  induction pss with
  | nil => rfl
  | cons ps pss ih =>
    rw [List.flatMap_cons, List.find?_append, ← ih, ← PropertyLayer.get?_ofList]
    unfold get?
    rw [List.map_cons, List.findSome?_cons]
    cases PropertyLayer.get? (.ofList ps) key <;> rfl

/-- Two searches that each find what the other one looks for find the same. -/
theorem find?_unique {α : Type} {f g : α → Bool} {l : List α} {a b : α} (ha : l.find? f = some a)
    (hb : l.find? g = some b) (hfb : f b = true) (hga : g a = true) : a = b := by
  induction l with
  | nil => cases ha
  | cons c l ih =>
    rw [List.find?_cons] at ha hb
    by_cases hf : f c = true
    · simp only [hf] at ha
      cases ha
      rw [hga] at hb
      exact Option.some.inj hb
    · simp only [hf] at ha
      by_cases hg : g c = true
      · simp only [hg] at hb
        cases hb
        exact absurd hfb hf
      · simp only [hg] at hb
        exact ih ha hb

namespace ModelType

/-- No property that can be found is stored under the name or the storage key of another one, and
properties of one name are stored under one key. -/
def WellKeyed (t : ModelType) : Prop :=
  ∀ {key key' : String} {p q : Property}, t.property? key = some p → t.property? key' = some q →
    (p.name = q.name → p.storageKey = q.storageKey) ∧
      (p.name ≠ q.name → p.storageKey ≠ q.name ∧ p.storageKey ≠ q.storageKey)

variable {t : ModelType} {i : Nat} {key : String} {p : Property}

/-- It is enough to look at all properties that the layers list. -/
theorem wellKeyed_of_listed (h : ∀ e ∈ t.properties.layers.flatMap (·.entries),
    ∀ e' ∈ t.properties.layers.flatMap (·.entries),
      (e.2.name = e'.2.name → e.2.storageKey = e'.2.storageKey) ∧
        (e.2.name ≠ e'.2.name →
          e.2.storageKey ≠ e'.2.name ∧ e.2.storageKey ≠ e'.2.storageKey)) : t.WellKeyed := by
  intro key key' p q hp hq
  obtain ⟨layer, hl, k, he⟩ := PropertyLayers.lists_of_get? hp
  obtain ⟨layer', hl', k', he'⟩ := PropertyLayers.lists_of_get? hq
  exact h _ (List.mem_flatMap.2 ⟨layer, hl, he⟩) _ (List.mem_flatMap.2 ⟨layer', hl', he'⟩)

theorem isStructured_of_property? (hp : t.property? key = some p) : t.isStructured = true := by
  unfold property? PropertyLayers.get? at hp
  unfold isStructured
  cases hl : t.properties.layers with
  | nil =>
    rw [hl] at hp
    cases hp
  | cons layer layers => rfl

theorem PlacedAt.property?_eq (h : t.PlacedAt i) :
    ∃ ps : List Property, ∀ key, t.property? key = ps.find? (·.answersTo key) := by
  obtain ⟨pss, hp⟩ : ∃ pss : List (List Property), t.properties.layers = pss.map .ofList := by
    have layers := h.layers
    generalize t.properties.layers = ls at layers
    induction ls with
    | nil => exact ⟨[], rfl⟩
    | cons layer ls ih =>
      obtain ⟨ps, rfl⟩ := layers layer List.mem_cons_self
      obtain ⟨pss, rfl⟩ := ih fun l hl => layers l (List.mem_cons_of_mem _ hl)
      exact ⟨ps :: pss, rfl⟩
  refine ⟨pss.flatMap List.reverse, fun key => ?_⟩
  rw [property?, ← PropertyLayers.get?_map_ofList, ← hp]

theorem PlacedAt.answersTo (h : t.PlacedAt i) (hp : t.property? key = some p) :
    p.answersTo key = true := by
  obtain ⟨ps, hps⟩ := h.property?_eq
  rw [hps] at hp
  have found := List.find?_some hp
  exact found

theorem PlacedAt.storageKey_eq (h : t.PlacedAt i) (hp : t.property? key = some p)
    (named : p.storageKey = p.name) : p.storageKey = key := by
  have answers := h.answersTo hp
  simp only [Property.answersTo, Bool.or_eq_true, beq_iff_eq] at answers
  exact answers.elim named.trans id

/-- Where properties are stored under their names, storage keys belong to one property each. -/
theorem wellKeyed_of_named (named : ∀ {key p}, t.property? key = some p → p.storageKey = p.name) :
    t.WellKeyed := by
  intro key key' p q hp hq
  rw [named hp, named hq]
  exact ⟨id, fun ne => ⟨ne, ne⟩⟩

/-- A property that is found is found by its storage key, too. -/
theorem WellKeyed.found_by_storageKey (hk : t.WellKeyed) (h : t.PlacedAt i)
    (hp : t.property? key = some p) : t.property? p.storageKey = some p := by
  obtain ⟨ps, hps⟩ := h.property?_eq
  have ha := h.answersTo hp
  rcases hq : t.property? p.storageKey with _ | q
  · rw [hps] at hp hq
    have := List.find?_eq_none.1 hq p (List.mem_of_find?_eq_some hp)
    simp [Property.answersTo] at this
  · have hb := h.answersTo hq
    simp only [Property.answersTo, Bool.or_eq_true, beq_iff_eq] at ha hb
    -- a property of another name would answer to a storage key that is not its own
    have hname : p.name = q.name := by
      by_cases hne : p.name = q.name
      · exact hne
      · obtain ⟨h₁, h₂⟩ := (hk hp hq).2 hne
        exact hb.elim (fun e => absurd e.symm h₁) fun e => absurd e.symm h₂
    have hkey := (hk hp hq).1 hname
    rw [hps] at hp hq
    refine congrArg some (find?_unique hp hq ?_ ?_).symm
    · simpa [Property.answersTo, ← hname, ← hkey] using ha
    · simp [Property.answersTo]

theorem WellKeyed.eq_of_storageKey (hk : t.WellKeyed) (h : t.PlacedAt i) {key' : String}
    {q : Property} (hp : t.property? key = some p) (hq : t.property? key' = some q)
    (e : p.storageKey = q.storageKey) : p = q := by
  have h₁ := hk.found_by_storageKey h hp
  rw [e, hk.found_by_storageKey h hq] at h₁
  exact (Option.some.inj h₁).symm

end ModelType

/-! ### Regular schemas -/

/-- Nothing of its own runs for the type. -/
structure ModelType.RuleFree (t : ModelType) : Prop where
  /-- Not on new instances. -/
  init : t.init = none
  /-- Not in coercion. -/
  coerce : t.coerce = none
  /-- Not in wrapping. -/
  wrap : t.wrap = .standard ∨ t.wrap = .disabled

/-- A schema that is built without hooks and without enumerations, where no property is stored
under the name or storage key of another one. -/
structure Schema.Regular (s : Schema) : Prop where
  /-- It is built without hooks. -/
  built : s.Built
  /-- Its types have no rules. -/
  free : ∀ t, (s.type t).RuleFree
  /-- Storage keys belong to one property each. -/
  keyed : ∀ t, (s.type t).WellKeyed

instance (t : ModelType) : Decidable t.RuleFree :=
  decidable_of_iff
    (t.init = none ∧ t.coerce = none ∧ (t.wrap = .standard ∨ t.wrap = .disabled))
    ⟨fun ⟨hi, hc, hw⟩ => ⟨hi, hc, hw⟩, fun ⟨hi, hc, hw⟩ => ⟨hi, hc, hw⟩⟩

theorem Schema.forall_type {s : Schema} {P : ModelType → Prop} (root : P .root)
    (listed : ∀ t ∈ s.models.toList, P t) (t : TypeId) : P (s.type t) := by
  unfold Schema.type
  cases ht : s.models[t.index]? with
  | none => exact root
  | some type => exact listed type (Array.mem_toList_iff.2 (Array.mem_of_getElem? ht))

theorem Schema.index_lt_of_isStructured {s : Schema} {t : TypeId}
    (structured : (s.type t).isStructured = true) : t.index < s.models.size := by
  refine Nat.lt_of_not_le fun beyond => ?_
  rw [type, Array.getElem?_eq_none beyond] at structured
  cases structured

theorem Schema.ruleFree_of_listed {s : Schema} (free : ∀ t ∈ s.models.toList, t.RuleFree)
    (t : TypeId) : (s.type t).RuleFree :=
  s.forall_type (by decide) free t

theorem Schema.Built.regular {s : Schema} (h : s.Built)
    (free : ∀ t ∈ s.models.toList, t.RuleFree) (keyed : ∀ t ∈ s.models.toList, t.WellKeyed) :
    s.Regular :=
  ⟨h, s.ruleFree_of_listed free,
    s.forall_type (ModelType.wellKeyed_of_listed (by decide)) keyed⟩

theorem Schema.initRules_of_free {s : Schema} (free : ∀ t, (s.type t).RuleFree) (t : TypeId) :
    s.initRules t = [] :=
  List.filterMap_eq_nil_iff.2 fun u _ => (free u).init

end Overlay
