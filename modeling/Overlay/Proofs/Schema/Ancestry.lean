import Overlay.Proofs.Schema.Built

/-!
# Ancestries

A derived type has the layers of its base, so it has properties if the base has any.

* `Schema.fits_model` : compatibility of model types is derivation;
* `Schema.Assembled.types_induction` : induction on the types, whatever hooks they bring;
* `Schema.Assembled.inherits` : whatever hooks types bring, they have the properties of their bases;
* `Schema.Inherits.isStructured_of_derivesFrom` : along an ancestry, properties do not get lost.
-/

namespace Overlay.Schema

variable {s : Schema} {t u : TypeId}

theorem lineageWithin_model (s : Schema) (bound : Nat) (t : TypeId) :
    s.lineageWithin bound (.model t) = (s.ancestorsWithin bound t).map .model := by
  induction bound generalizing t with
  | zero => rfl
  | succ bound ih =>
    rw [lineageWithin, ancestorsWithin, List.map_cons, base?]
    cases (s.type t).base with
    | none => rfl
    | some b => exact congrArg (DataType.model t :: ·) (ih b)

/-- One model type is compatible with another one if it is that type or derives from it. -/
theorem fits_model (s : Schema) (t u : TypeId) :
    s.fits (.model t) (.model u) = s.derivesFrom t u := by
  rw [Bool.eq_iff_iff, fits, derivesFrom, lineage, lineageWithin_model, ancestors,
    List.contains_iff_mem, List.contains_iff_mem, List.mem_map]
  constructor
  · rintro ⟨x, hx, e⟩
    cases e
    exact hx
  · exact fun h => ⟨u, h, rfl⟩

theorem fits_model_builtin (s : Schema) (t : TypeId) (b : Builtin) :
    s.fits (.model t) (.builtin b) = false := by
  rw [fits, lineage, lineageWithin_model, Bool.eq_false_iff, ne_eq, List.contains_iff_mem,
    List.mem_map]
  rintro ⟨x, -, e⟩
  cases e

theorem lt_size_of_base (hb : (s.type t).base = some u) : t.index < s.models.size := by
  refine Nat.lt_of_not_le fun le => ?_
  rw [type_of_size_le le] at hb
  cases hb

/-! ### Types that have properties -/

/-- The schemas that come about by deriving types, whatever hooks these bring, by making
enumerations and by adding adapters. -/
inductive Assembled : Schema → Prop
  /-- The root alone. -/
  | initial : Assembled .initial
  /-- A type derived from one that is there. -/
  | derive {s s' : Schema} {base t : TypeId} {ext : Extension} {scope : Scope}
      (before : Assembled s) (known : base.index < s.models.size)
      (result : s.derive base ext scope = .ok (t, s')) : Assembled s'
  /-- An enumeration. -/
  | enumerate {s s' : Schema} {spec : Enumeration.Spec} {e : Enumeration} {h h' : Heap}
      (before : Assembled s) (result : Enumeration.define spec s h = .ok (e, s', h')) : Assembled s'
  /-- An adapter. -/
  | adapter {s : Schema} (a : AdapterType) (before : Assembled s) : Assembled (s.addAdapter a).2

/-- Every type derives from an earlier one, and has the properties of that. -/
structure Inherits (s : Schema) : Prop where
  /-- There is a root. -/
  size_pos : 0 < s.models.size
  /-- The base of a type is at an earlier place. -/
  base_lt : ∀ t b : TypeId, (s.type t).base = some b → b.index < t.index
  /-- Properties are inherited. -/
  structured : ∀ t b : TypeId, (s.type t).base = some b → (s.type b).isStructured = true →
    (s.type t).isStructured = true

/-- A type at the place after the last one has the layers of an earlier type and perhaps more. -/
theorem Inherits.addModel (inherits : s.Inherits) {base : TypeId} (hb : base.index < s.models.size)
    (ext : Extension) (ps : List Property) :
    (s.addModel (.extended base (s.type base) ext ps)).2.Inherits where
  size_pos := by
    rw [size_addModel]
    exact Nat.succ_pos _
  base_lt t c hc := by
    rw [type_addModel] at hc
    split at hc
    · rename_i ht
      rwa [← Option.some.inj hc, ht]
    · exact inherits.base_lt t c hc
  structured t c hc hstr := by
    simp only [type_addModel] at hc hstr ⊢
    by_cases ht : t.index = s.models.size
    · rw [if_pos ht] at hc ⊢
      obtain rfl : base = c := Option.some.inj hc
      rw [if_neg (Nat.ne_of_lt hb)] at hstr
      simp only [ModelType.isStructured, ModelType.extended] at hstr ⊢
      split
      · exact hstr
      · rfl
    · rw [if_neg ht] at hc ⊢
      have below := inherits.base_lt t c hc
      by_cases hn : c.index = s.models.size
      · -- the base of a type is at an earlier place
        have there := lt_size_of_base hc
        omega
      · rw [if_neg hn] at hstr
        exact inherits.structured t c hc hstr

/-- Induction on the types of a schema, in the order in which they are added. -/
theorem Assembled.types_induction {P : Schema → Prop} (h : s.Assembled) (initial : P .initial)
    (extended : ∀ (s : Schema) (base : TypeId) (ext : Extension) (ps : List Property), s.Assembled →
      base.index < s.models.size → P s → P (s.addModel (.extended base (s.type base) ext ps)).2)
    (adapter : ∀ (s : Schema) (a : AdapterType), P s → P (s.addAdapter a).2) : P s := by
  -- enumerations derive from the root, so there has to be one
  suffices all : 0 < s.models.size ∧ P s from all.2
  have grown : ∀ (s : Schema) (t : ModelType), 0 < (s.addModel t).2.models.size := fun s t => by
    rw [size_addModel]
    exact Nat.succ_pos _
  induction h with
  | initial => exact ⟨Nat.one_pos, initial⟩
  | @derive s s' base t ext scope before known result ih =>
    rcases declared : declareAll scope ext.properties with e | ps
    · simp only [Schema.derive, declared, bind, Except.bind] at result
      cases result
    · rw [derive_schema declared result]
      exact ⟨grown _ _, extended _ _ _ _ before known ih.2⟩
  | enumerate before result ih =>
    rw [Enumeration.define_schema result]
    exact ⟨grown _ _, extended _ _ _ _ before ih.1 ih.2⟩
  | adapter a _ ih => exact ⟨ih.1, adapter _ a ih.2⟩

theorem Assembled.root (h : s.Assembled) : s.type .root = .root := by
  refine (h.types_induction (P := fun s => 0 < s.models.size ∧ s.type .root = .root)
    ⟨Nat.one_pos, type_root _⟩ (fun s base ext ps _ _ ih => ?_) fun s a ih => ih).2
  refine ⟨?_, ?_⟩
  · rw [size_addModel]
    exact Nat.succ_pos _
  · have old : TypeId.root.index ≠ s.models.size := Nat.ne_of_lt ih.1
    rw [type_addModel, if_neg old]
    exact ih.2

theorem Assembled.inherits (h : s.Assembled) : s.Inherits := by
  refine h.types_induction (P := Inherits) ?_
    (fun s base ext ps _ known ih => ih.addModel known ext ps)
    fun s a ih => ⟨ih.size_pos, ih.base_lt, ih.structured⟩
  have based : ∀ t b : TypeId, (Schema.initial.type t).base ≠ some b := fun t b hb => by
    rw [type_root] at hb
    cases hb
  exact ⟨Nat.one_pos, fun t b hb => absurd hb (based t b), fun t b hb => absurd hb (based t b)⟩

theorem Built.assembled (h : s.Built) : s.Assembled := by
  induction h with
  | initial => exact .initial
  | derive _ known _ _ _ result ih => exact ih.derive known result
  | enumerate _ result ih => exact ih.enumerate result

/-- A type that derives from one with properties has properties. -/
theorem Inherits.isStructured_of_derivesFrom (h : s.Inherits) (hd : s.derivesFrom t u = true)
    (hu : (s.type u).isStructured = true) : (s.type t).isStructured = true := by
  have along : ∀ (bound : Nat) (t : TypeId), u ∈ s.ancestorsWithin bound t →
      (s.type t).isStructured = true := by
    intro bound
    induction bound with
    | zero => exact fun t hm => absurd hm List.not_mem_nil
    | succ bound ih =>
      intro t hm
      rcases List.mem_cons.1 hm with rfl | hm
      · exact hu
      · cases hb : (s.type t).base with
        | none =>
          rw [hb] at hm
          cases hm
        | some b =>
          rw [hb] at hm
          exact h.structured t b hb (ih b hm)
  exact along _ t (List.contains_iff_mem.1 hd)

end Overlay.Schema
