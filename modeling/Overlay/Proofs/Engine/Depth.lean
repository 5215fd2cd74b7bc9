import Overlay.Proofs.Engine.Orderly
import Overlay.Proofs.Schema.Free

/-!
# How deep operations nest

A type refers to earlier types only, so an operation that runs no hooks nests no deeper than its
type is far from the root.  `Schema.depth` is a bound: entering a type takes four levels, and
entering the elements of an array one for each level of elements that a property declares.

* `Schema.Stratified.create_orderly`, `Schema.Stratified.wrap_orderly` : within that depth the
  operations on calm types are orderly, and so they end;
* `Schema.depth_le_budget` : what an operation may use of its own is enough;
* `Engine.create_orderly`, `Engine.setProperty_orderly` : so what a program calls ends.
-/

namespace Overlay

open Engine

/-! ### Weights -/

theorem PropertyLayers.weight_le {ps : PropertyLayers} {p : Property} (h : ps.Lists p) (n : Nat) :
    p.weight ≤ ps.layers.foldr
      (fun layer n => layer.entries.foldr (fun e n => e.2.weight + n) n) n := by
  have entries_le : ∀ (es : List (String × Property)) (n : Nat),
      n ≤ es.foldr (fun e n => e.2.weight + n) n := by
    intro es n
    induction es with
    | nil => exact Nat.le_refl n
    | cons e es ih => exact Nat.le_trans ih (Nat.le_add_left _ _)
  have mem_le : ∀ (es : List (String × Property)) (key : String) (n : Nat), (key, p) ∈ es →
      p.weight ≤ es.foldr (fun e n => e.2.weight + n) n := by
    intro es key n hp
    induction es with
    | nil => cases hp
    | cons e es ih =>
      rcases List.mem_cons.1 hp with rfl | hp
      · exact Nat.le_add_right _ _
      · exact Nat.le_trans (ih hp) (Nat.le_add_left _ _)
  obtain ⟨layers⟩ := ps
  obtain ⟨layer, hl, key, hp⟩ := h
  induction layers with
  | nil => cases hl
  | cons layer' layers ih =>
    rcases List.mem_cons.1 hl with rfl | hl
    · exact mem_le _ key _ hp
    · exact Nat.le_trans (ih hl) (entries_le _ _)

theorem ModelType.weight_le {t : ModelType} {p : Property} (h : t.properties.Lists p) :
    p.weight ≤ t.weight :=
  PropertyLayers.weight_le h _

theorem Property.elements_length_le (p : Property) : p.elements.length ≤ p.weight := by
  unfold weight
  omega

namespace Schema

variable (s : Schema)

/-- How deep operations on the types before a place nest. -/
def depth : Nat → Nat
  | 0 => 0
  | i + 1 => depth i + (s.type ⟨i⟩).weight + 4

theorem foldr_weight_append (ts us : List ModelType) :
    (ts ++ us).foldr (fun t n => t.weight + 1 + n) 0 =
      ts.foldr (fun t n => t.weight + 1 + n) 0 + us.foldr (fun t n => t.weight + 1 + n) 0 := by
  induction ts with
  | nil => simp
  | cons t ts ih =>
    rw [List.cons_append, List.foldr_cons, List.foldr_cons, ih]
    exact (Nat.add_assoc _ _ _).symm

theorem depth_le {i : Nat} (hi : i ≤ s.models.size) : s.depth i ≤ 4 * s.weight := by
  have prefix_le : ∀ i ≤ s.models.toList.length,
      s.depth i ≤ 4 * (s.models.toList.take i).foldr (fun t n => t.weight + 1 + n) 0 := by
    intro i
    induction i with
    | zero => intro _; exact Nat.zero_le _
    | succ i ih =>
      intro hi
      have ht : s.type ⟨i⟩ = s.models.toList[i] := by
        unfold type
        rw [Array.getElem?_eq_getElem (Nat.lt_of_succ_le (by simpa using hi))]
        rfl
      have := ih (Nat.le_of_succ_le hi)
      rw [List.take_succ_eq_append_getElem hi, foldr_weight_append, depth, ht]
      simp only [List.foldr_cons, List.foldr_nil]
      omega
  have := prefix_le i hi
  have total := foldr_weight_append (s.models.toList.take i) (s.models.toList.drop i)
  rw [List.take_append_drop] at total
  unfold weight
  omega

/-- The depth that an operation is allowed leaves room for the types, for what it involves besides,
and for more. -/
theorem depth_le_budget {i : Nat} (hi : i ≤ s.models.size) (besides : Nat) :
    s.depth i + besides + 8 ≤ s.budget besides := by
  have := s.depth_le hi
  unfold budget
  omega

/-! ### The operations end -/

/-- The property is written to the record and declared with types before a place, on which
operations are calm. -/
structure CalmBelow (q : Property) (i : Nat) : Prop where
  /-- It is written to the record. -/
  setter : q.setter = none
  /-- Operations on its types are calm. -/
  types : ∀ u ∈ q.type :: q.elements, s.Throughout s.Calm u
  /-- They are at places before. -/
  earlier : ∀ u, .model u ∈ q.type :: q.elements → u.index < i

variable {s}

theorem CalmBelow.element {p q : Property} {i : Nat} (calm : s.CalmBelow p i)
    (hq : p.elementProperty? = some q) :
    s.CalmBelow q i ∧ q.elements.length + 1 = p.elements.length := by
  obtain ⟨he, -, setter⟩ := Property.elementProperty?_eq_some hq
  have mem : ∀ u ∈ q.type :: q.elements, u ∈ p.type :: p.elements := fun u hu => by
    rw [he]
    exact List.mem_cons_of_mem _ hu
  refine ⟨⟨setter, fun u hu => calm.types u (mem u hu), fun u hu => calm.earlier u (mem _ hu)⟩, ?_⟩
  rw [he, List.length_cons]

theorem Stratified.calmBelow (hs : s.Stratified) {t : TypeId}
    (calm : s.Throughout s.Calm (.model t)) {key : String} {q : Property}
    (hq : (s.type t).property? key = some q) : s.CalmBelow q t.index :=
  ⟨calm.here.setters key q hq, calm.property hq, (hs.placedAt t).earlier q
    (PropertyLayers.lists_of_get? hq)⟩

theorem FreeProperty.calmBelow {q : Property} (free : s.FreeProperty q) :
    s.CalmBelow q s.models.size :=
  ⟨free.setter, fun u hu => (free.slot u hu).calm, free.known⟩

theorem Built.calmBelow (hs : s.Built) {q : Property} {i : Nat} (plain : q.PlainBelow i) :
    s.CalmBelow q i := by
  refine ⟨plain.setter, fun u hu => ?_, plain.earlier⟩
  have below := plain.types u hu
  cases u with
  | builtin b => exact .builtin b
  | model t => exact hs.calm t
  | adapter a => exact below.elim

section Below

variable {i : Nat}
  (wrap : ∀ t : TypeId, t.index < i → s.Throughout s.Calm (.model t) → ∀ d, s.depth i ≤ d → ∀ p v,
    Orderly s p (Engine.perform d (.wrap (.model t) v)))

include wrap

/-- Wrapping by the type of a property is orderly if wrapping by the types before a place is. -/
theorem wrap_orderly_of_calmBelow {q : Property} {d : Nat} (hq : s.CalmBelow q i)
    (hd : s.depth i ≤ d) (hw : s.wraps q.type = true) {p : Option Property} (v : Value) :
    Orderly s p (Engine.perform d (.wrap q.type v)) := by
  cases hu : q.type with
  | builtin b => rw [hu] at hw; cases hw
  | model u =>
    have mem : .model u ∈ q.type :: q.elements := hu ▸ List.mem_cons_self
    exact wrap u (hq.earlier u mem) (hq.types _ mem) d hd _ v
  | adapter a => exact nomatch hq.types (.adapter a) (hu ▸ List.mem_cons_self)

/-- Coercing for a property is orderly if wrapping by the types before a place is.  Each level of
elements that the property declares takes one level of depth. -/
theorem coerce_orderly_of_calmBelow {d : Nat} {q : Property} (hq : s.CalmBelow q i)
    (hd : s.depth i + q.elements.length + 1 ≤ d) (v : Value) :
    Orderly s (some q) (Engine.perform d (.coerce q.type v)) := by
  -- the depth left decreases with the levels of elements
  induction d generalizing q v with
  | zero => omega
  | succ d ih =>
    have calm := hq.types q.type List.mem_cons_self
    show Orderly s (some q) (coerceBy (Engine.perform d) q.type v)
    cases hu : q.type with
    | builtin b =>
      refine coerceBuiltin_orderly (fun e he v => ?_) b v
      obtain ⟨hp, hl⟩ := hq.element he
      exact stored_orderly (fun v => ih hp (by omega) v)
        (fun hw v => wrap_orderly_of_calmBelow wrap hp (by omega) hw v) v
    | model u =>
      rw [hu] at calm
      exact coerceUnder_orderly calm.here.values v
    | adapter a =>
      rw [hu] at calm
      cases calm

theorem write_orderly_of_calmBelow {d : Nat} {q : Property} (hq : s.CalmBelow q i)
    (hd : s.depth i + q.elements.length + 2 ≤ d) (p : Option Property) (m : ModelId) (v : Value) :
    Orderly s p (Engine.perform d (.set m q v)) := by
  obtain ⟨d, rfl⟩ : ∃ d', d = d' + 1 := ⟨d - 1, by omega⟩
  exact writeProperty_orderly hq.setter
    (fun v => coerce_orderly_of_calmBelow wrap hq (by omega) v)
    (fun hw v => wrap_orderly_of_calmBelow wrap hq (by omega) hw v) m v

end Below

/-- Wrapping by the types before a place is orderly if making models of them is, one level below. -/
theorem wrap_orderly_of_create {i : Nat}
    (create : ∀ t : TypeId, t.index < i → s.Throughout s.Calm (.model t) → ∀ d,
      s.depth i ≤ d + 1 → ∀ p data, Orderly s p (Engine.perform d (.create t data)))
    (t : TypeId) (ht : t.index < i) (calm : s.Throughout s.Calm (.model t)) (d : Nat)
    (hd : s.depth i ≤ d) (p : Option Property) (v : Value) :
    Orderly s p (Engine.perform d (.wrap (.model t) v)) := by
  obtain ⟨i, rfl⟩ : ∃ i', i = i' + 1 := ⟨i - 1, by omega⟩
  have hpos : 0 < s.depth (i + 1) := by
    rw [depth]
    omega
  obtain ⟨d, rfl⟩ : ∃ d', d = d' + 1 := ⟨d - 1, by omega⟩
  exact wrapUnder_orderly calm.here.values (fun data => create t ht calm d hd p data) v

namespace Stratified

/-- Making a model of a type before a place is orderly one level below the depth of the place. -/
theorem create_orderly (hs : s.Stratified) (i : Nat) (t : TypeId) (ht : t.index < i)
    (calm : s.Throughout s.Calm (.model t)) (d : Nat) (hd : s.depth i ≤ d + 1)
    (p : Option Property) (data : Option Value) :
    Orderly s p (Engine.perform d (.create t data)) := by
  induction i generalizing t d p data with
  | zero => exact absurd ht (Nat.not_lt_zero _)
  | succ i ih =>
    rcases Nat.lt_succ_iff_lt_or_eq.1 ht with ht | rfl
    · exact ih t ht calm d (by rw [depth] at hd; omega) p data
    · rw [depth] at hd
      obtain ⟨d, rfl⟩ : ∃ d', d = d' + 1 := ⟨d - 1, by omega⟩
      refine construct_orderly calm.here.init (fun key q hq m v => ?_) data
      have hw : q.elements.length ≤ (s.type ⟨t.index⟩).weight := Nat.le_trans q.elements_length_le
        (ModelType.weight_le (PropertyLayers.lists_of_get? hq))
      exact write_orderly_of_calmBelow (wrap_orderly_of_create ih) (hs.calmBelow calm hq) (by omega)
        _ m v

/-- Wrapping by a type before a place is orderly within the depth of the place. -/
theorem wrap_orderly (hs : s.Stratified) (i : Nat) (t : TypeId) (ht : t.index < i)
    (calm : s.Throughout s.Calm (.model t)) (d : Nat) (hd : s.depth i ≤ d) (p : Option Property)
    (v : Value) : Orderly s p (Engine.perform d (.wrap (.model t) v)) :=
  wrap_orderly_of_create (hs.create_orderly i) t ht calm d hd p v

end Stratified

/-! ### What is deep enough -/

variable (s) in
/-- The depth is enough to store what a property declares. -/
def Fathoms (d : Nat) (q : Property) : Prop := s.depth s.models.size + q.elements.length + 1 ≤ d

theorem fathoms_of_budget {q : Property} {d : Nat} (hd : s.budget q.weight ≤ d + 2) :
    s.Fathoms d q := by
  have := s.depth_le_budget (Nat.le_refl s.models.size) q.weight
  have := q.elements_length_le
  unfold Fathoms
  omega

theorem Fathoms.element {p e : Property} {d : Nat} (deep : s.Fathoms (d + 1) p)
    (length : e.elements.length + 1 = p.elements.length) : s.Fathoms d e := by
  unfold Fathoms at deep ⊢
  omega

namespace Stratified

variable {q : Property} {d : Nat} (hs : s.Stratified) (calm : s.CalmBelow q s.models.size)

include hs calm

theorem coerce_orderly (deep : s.Fathoms d q) (v : Value) :
    Orderly s (some q) (Engine.perform d (.coerce q.type v)) :=
  coerce_orderly_of_calmBelow (hs.wrap_orderly _) calm deep v

theorem wrap_orderly_of_property (deep : s.Fathoms d q) (hw : s.wraps q.type = true)
    (v : Value) : Orderly s (some q) (Engine.perform d (.wrap q.type v)) := by
  unfold Fathoms at deep
  exact wrap_orderly_of_calmBelow (hs.wrap_orderly _) calm (by omega) hw v

theorem stored_orderly (deep : s.Fathoms d q) (p : Option Property) (v : Value) :
    Orderly s p (stored (Engine.perform d) q v) :=
  Engine.stored_orderly (hs.coerce_orderly calm deep) (hs.wrap_orderly_of_property calm deep) v

theorem prepared_orderly (deep : s.Fathoms d q) (p : Option Property) (v : Value) :
    Orderly s p (prepared (Engine.perform d) q v) :=
  .bind (.concerning q (adapt_orderly (hs.coerce_orderly calm deep) v)) fun w =>
    .concerning q (settle_orderly (hs.wrap_orderly_of_property calm deep) w)

end Stratified

end Schema

/-! ### What a program calls -/

namespace Engine

variable {s : Schema} (hs : s.Stratified)

include hs

theorem create_orderly {t : TypeId} (ht : t.index < s.models.size)
    (calm : s.Throughout s.Calm (.model t)) (data : Option Value) :
    Orderly s none (create t data) := by
  have room := s.depth_le_budget (Nat.le_refl s.models.size) 0
  show Orderly s none (schema >>= fun s => Engine.perform (s.budget 0) (.create t data))
  exact .schema (hs.create_orderly _ t ht calm _ (by omega) _ data)

theorem wrap_orderly {t : TypeId} (ht : t.index < s.models.size)
    (calm : s.Throughout s.Calm (.model t)) (v : Value) : Orderly s none (wrap (.model t) v) := by
  have room := s.depth_le_budget (Nat.le_refl s.models.size) 0
  show Orderly s none (schema >>= fun s => Engine.perform (s.budget 0) (.wrap (.model t) v))
  exact .schema (hs.wrap_orderly _ t ht calm _ (by omega) _ v)

variable {p : Property} (calm : s.CalmBelow p s.models.size)

include calm

theorem setProperty_orderly (m : ModelId) (v : Value) : Orderly s none (setProperty m p v) := by
  have room := s.depth_le_budget (Nat.le_refl s.models.size) p.weight
  have := p.elements_length_le
  show Orderly s none (schema >>= fun s => Engine.perform (s.budget p.weight) (.set m p v))
  exact .schema (Schema.write_orderly_of_calmBelow (hs.wrap_orderly _) calm (by omega) _ m v)

theorem storedForm_orderly (v : Value) : Orderly s none (storedForm p v) :=
  .schema (hs.stored_orderly calm (Schema.fathoms_of_budget (Nat.le_add_right _ 2)) _ v)

end Engine

end Overlay
