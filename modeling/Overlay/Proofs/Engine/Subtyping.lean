import Mathlib.Logic.Relation
import Overlay.Proofs.Engine.Wrapping
import Overlay.Proofs.Schema.Accessors
import Overlay.Proofs.Snapshot.Liveness

/-!
# Subtypes and their instances

Whether a type is a subtype of another one is tested in two ways: when a property is written, by the
compatibility of data types, and when a value is wrapped, by derivation.  Both follow the bases of
model types, and since every base is at an earlier place, neither stops too early.

* `Schema.Derives` : the bases, followed however far;
* `Schema.Inherits.derivesFrom_iff` : the walks along the bases come to all of them;
* `Schema.Assembled.findSome?_of_derives` : a subtype finds in its layers what its base type finds,
  unless something declared in between is in the way;
* `Engine.subtypes_ordered` : **the two tests agree, order the types and accept the same
  instances**, and subtypes have the properties of their base types.
-/

namespace Overlay

open PropertyLayer

namespace Schema

variable {s : Schema} {t u v : TypeId}

/-! ### Following the bases -/

/-- The second type comes after any number of steps from a type to its base. -/
def Derives (s : Schema) (t u : TypeId) : Prop :=
  Relation.ReflTransGen (fun t b => (s.type t).base = some b) t u

theorem derives_of_mem {bound : Nat} (h : u ∈ s.ancestorsWithin bound t) : s.Derives t u := by
  induction bound generalizing t with
  | zero => cases h
  | succ bound ih =>
    rcases List.mem_cons.1 h with rfl | h
    · exact .refl
    · cases hb : (s.type t).base with
      | none =>
        rw [hb] at h
        cases h
      | some b =>
        rw [hb] at h
        exact .head hb (ih h)

namespace Inherits

variable (h : s.Inherits)

include h

theorem index_le_of_derives (hd : s.Derives t u) : u.index ≤ t.index := by
  induction hd with
  | refl => exact Nat.le_refl _
  | tail _ hb ih => exact Nat.le_trans (Nat.le_of_lt (h.base_lt _ _ hb)) ih

theorem mem_ancestorsWithin {bound : Nat} (hd : s.Derives t u) (ht : t.index < bound) :
    u ∈ s.ancestorsWithin bound t := by
  induction hd using Relation.ReflTransGen.head_induction_on generalizing bound with
  | refl =>
    cases bound with
    | zero => exact absurd ht (Nat.not_lt_zero _)
    | succ bound => exact List.mem_cons_self
  | @head t b hb _ ih =>
    cases bound with
    | zero => exact absurd ht (Nat.not_lt_zero _)
    | succ bound =>
      have below : b.index < bound := by
        have := h.base_lt t b hb
        omega
      rw [ancestorsWithin, hb]
      exact List.mem_cons_of_mem _ (ih below)

/-- The bound on the length of a walk is never reached. -/
theorem derivesFrom_iff : s.derivesFrom t u = true ↔ s.Derives t u := by
  rw [derivesFrom, List.contains_iff_mem, ancestors]
  refine ⟨derives_of_mem, fun hd => ?_⟩
  rcases Relation.ReflTransGen.cases_head hd with rfl | ⟨b, hb, -⟩
  · exact List.mem_cons_self
  · have lt := lt_size_of_base hb
    exact h.mem_ancestorsWithin hd (by unfold lineageBound; omega)

theorem derives_antisymm (htu : s.Derives t u) (hut : s.Derives u t) : t = u := by
  have same := Nat.le_antisymm (h.index_le_of_derives hut) (h.index_le_of_derives htu)
  cases t
  cases u
  exact congrArg TypeId.mk same

end Inherits

/-- Of two types that a type derives from, one derives from the other: a type has one base. -/
theorem derives_total (htu : s.Derives t u) (htv : s.Derives t v) :
    s.Derives u v ∨ s.Derives v u :=
  Relation.ReflTransGen.total_of_right_unique
    (fun _ _ _ hb hb' => Option.some.inj (hb.symm.trans hb')) htu htv

theorem Assembled.exists_base (h : s.Assembled) :
    ∀ t : TypeId, t ≠ .root → t.index < s.models.size → ∃ b, (s.type t).base = some b := by
  refine h.types_induction
    (P := fun s => ∀ t : TypeId, t ≠ .root → t.index < s.models.size → ∃ b, (s.type t).base = some b)
    ?_ ?_ fun s a ih => ih
  · rintro ⟨i⟩ other lt
    have first : i = 0 := Nat.lt_one_iff.1 lt
    exact absurd (congrArg TypeId.mk first) other
  · intro s base ext ps _ _ ih t other lt
    rw [size_addModel] at lt
    rw [type_addModel]
    split
    · exact ⟨base, rfl⟩
    · exact ih t other (by omega)

theorem Assembled.derives_root (h : s.Assembled) (ht : t.index < s.models.size) :
    s.Derives t .root := by
  induction hi : t.index using Nat.strongRecOn generalizing t with
  | _ i ih =>
    by_cases root : t = .root
    · exact root ▸ .refl
    · obtain ⟨b, hb⟩ := h.exists_base t root ht
      have below := h.inherits.base_lt t b hb
      exact .head hb (ih b.index (hi ▸ below) (Nat.lt_trans below ht) rfl)

/-! ### What subtypes inherit -/

/-- A type on the way from the first type to the second, which it is not. -/
structure Between (s : Schema) (t u v : TypeId) : Prop where
  /-- The first type derives from it. -/
  above : s.derivesFrom t v = true
  /-- It derives from the second type. -/
  below : s.derivesFrom v u = true
  /-- It is not the second type. -/
  other : v ≠ u

/-- What all layers declared on the way miss, a type finds in the layers of the type that it derives
from. -/
theorem Assembled.findSome?_of_derives {α : Type} (h : s.Assembled) {f : PropertyLayer → Option α}
    (hd : s.Derives t u) (missing : ∀ v, s.Between t u v → f (.ofList (s.type v).declared) = none) :
    (s.type t).properties.layers.findSome? f = (s.type u).properties.layers.findSome? f := by
  have iff {t u : TypeId} := h.inherits.derivesFrom_iff (t := t) (u := u)
  induction hd using Relation.ReflTransGen.head_induction_on with
  | refl => rfl
  | @head t b hb hd ih =>
    have later : b.index < t.index := h.inherits.base_lt t b hb
    have here : s.Between t u t := by
      refine ⟨iff.2 .refl, iff.2 (.head hb hd), ?_⟩
      rintro rfl
      exact absurd (h.inherits.index_le_of_derives hd) (Nat.not_le_of_lt later)
    have own : (s.type t).ownLayers.findSome? f = none := by
      unfold ModelType.ownLayers
      split
      · rfl
      · rw [List.findSome?_cons, missing t here]
        rfl
    rw [h.layered.layers t, hb, Option.elim_some, List.findSome?_append, own, Option.none_or]
    exact ih fun v between =>
      missing v ⟨iff.2 (.head hb (iff.1 between.above)), between.below, between.other⟩

theorem Assembled.mem_visible (h : s.Assembled) {p : Property} :
    p ∈ (s.type t).properties.visible ↔
      (s.type t).properties.layers.findSome? (·.own? p.name) = some p := by
  rw [h.properties_eq t, PropertyLayers.mem_visible_iff]
  rfl

/-- **Subtypes have the properties of their base types.**  What no property declared on the way is
named or stored under, finds the same, and what is seen under it is the same. -/
theorem Assembled.inherits_properties (h : s.Assembled) (hd : s.Derives t u) {key : String}
    (apart : ∀ v, s.Between t u v → ∀ q ∈ (s.type v).declared, q.answersTo key = false) :
    (s.type t).property? key = (s.type u).property? key ∧
      ∀ p, p.name = key →
        (p ∈ (s.type t).properties.visible ↔ p ∈ (s.type u).properties.visible) := by
  have missing : ∀ v, s.Between t u v → (ofList (s.type v).declared).get? key = none := by
    intro v between
    rw [get?_ofList, List.find?_eq_none]
    intro q hq
    simp [apart v between q (List.mem_reverse.1 hq)]
  refine ⟨h.findSome?_of_derives hd missing, fun p hp => ?_⟩
  subst hp
  rw [h.mem_visible, h.mem_visible, h.findSome?_of_derives hd fun v between => ?_]
  rw [own?, missing v between]
  rfl

end Schema

namespace Engine

variable {s : Schema} {c : Context} {st : State} {m : ModelId} {t : TypeId} {p : Property}

/-! ### The two tests -/

theorem isInstance_run (m : ModelId) (t : TypeId) (c : Context) (st : State) :
    isInstance m t c st = (.ok (c.schema.fits (.model (st.heap.type m)) (.model t)), st) := by
  rw [c.schema.fits_model]
  rfl

theorem adapt_model_run (perform : Perform) (hp : p.type = .model t) :
    adapt perform p (.model m) c st =
      if c.schema.derivesFrom (st.heap.type m) t then (.ok (st.heap.data m), st)
      else perform (.coerce (.model t) (.model m)) c st := by
  simp only [adapt, bind_run, heap, schema, hp, c.schema.fits_model]
  split <;> rfl

/-- **The two subtype tests agree and order the types.**  In every schema that comes about by
deriving types, making enumerations and adding adapters, a model type is compatible with another one
just if it is that type or derives from it, however long the way is.  This is a partial order with
the root above every type, and the types that a type derives from form a chain.  A key that no
property declared on the way from a type down to a subtype of it is named or stored under finds the
same property for both, and what is seen under that name is the same.

So writing a property of a model type and wrapping by that type accept the same models as instances:
the one stores their data and the other gives them back, and both coerce all other models. -/
theorem subtypes_ordered (h : s.Assembled) :
    (∀ t u, s.fits (.model t) (.model u) = s.derivesFrom t u ∧
      (s.derivesFrom t u = true ↔ s.Derives t u)) ∧
    ((∀ t, s.derivesFrom t t = true) ∧
      (∀ t u v, s.derivesFrom t u = true → s.derivesFrom u v = true → s.derivesFrom t v = true) ∧
      (∀ t u, s.derivesFrom t u = true → s.derivesFrom u t = true → t = u) ∧
      (∀ t : TypeId, t.index < s.models.size → s.derivesFrom t .root = true)) ∧
    (∀ t u v, s.derivesFrom t u = true → s.derivesFrom t v = true →
      s.derivesFrom u v = true ∨ s.derivesFrom v u = true) ∧
    (∀ t u key, s.derivesFrom t u = true →
      (∀ v, s.Between t u v → ∀ q ∈ (s.type v).declared, q.answersTo key = false) →
        (s.type t).property? key = (s.type u).property? key ∧
          ∀ p, p.name = key →
            (p ∈ (s.type t).properties.visible ↔ p ∈ (s.type u).properties.visible)) ∧
    ∀ (perform : Perform) (c : Context) (st : State) (m : ModelId) (t : TypeId) (p : Property),
      c.schema = s → p.type = .model t →
        isInstance m t c st = (.ok (s.fits (.model (st.heap.type m)) p.type), st) ∧
          if s.fits (.model (st.heap.type m)) p.type then
            adapt perform p (.model m) c st = (.ok (st.heap.data m), st) ∧
              wrapStandard perform t (.model m) c st = (.ok (.model m), st)
          else
            adapt perform p (.model m) c st = perform (.coerce p.type (.model m)) c st ∧
              instance? t (.model m) c st = (.ok none, st) := by
  have iff {t u : TypeId} := h.inherits.derivesFrom_iff (t := t) (u := u)
  refine ⟨fun t u => ⟨s.fits_model t u, iff⟩, ⟨s.derivesFrom_self, fun t u v htu huv => ?_,
    fun t u htu hut => ?_, fun t ht => ?_⟩, fun t u v htu htv => ?_, fun t u key hd apart => ?_,
    fun perform c st m t p hc hp => ?_⟩
  · exact iff.2 ((iff.1 htu).trans (iff.1 huv))
  · exact h.inherits.derives_antisymm (iff.1 htu) (iff.1 hut)
  · exact iff.2 (h.derives_root ht)
  · exact (Schema.derives_total (iff.1 htu) (iff.1 htv)).imp iff.2 iff.2
  · exact h.inherits_properties (iff.1 hd) apart
  · subst hc
    rw [hp]
    refine ⟨isInstance_run m t c st, ?_⟩
    rw [adapt_model_run perform hp, c.schema.fits_model]
    split
    · rename_i accepted
      rw [wrapStandard, bind_run, instance?_model, if_pos accepted]
      exact ⟨rfl, rfl⟩
    · rename_i refused
      rw [instance?_model, if_neg refused]
      exact ⟨rfl, rfl⟩

/-! ### Pups -/

/-- What declares a pup, whose tricks are counted. -/
def pups : Extension :=
  { Extension.empty with name := some "Pup", properties := [("trick", .marker .number)] }

/-- Pups are dogs with another kind of trick. -/
def kennelSchema : Schema :=
  (Snapshot.ownerSchema.addModel (.extended ⟨2⟩ (Snapshot.ownerSchema.type ⟨2⟩) pups
    [⟨"trick", "trick", .builtin .number, [], none, none, true⟩])).2

theorem kennelSchema_assembled : kennelSchema.Assembled :=
  (Snapshot.ownerSchema_built.extend ⟨2⟩ pups (by decide) ⟨rfl, nofun, rfl, rfl⟩ rfl
    (by decide)).assembled

/-- A pup is a pet, with the name of one; it has a trick of its own, but the dog's name. -/
theorem subtypes_ordered_kennel : kennelSchema.Assembled ∧
    kennelSchema.fits (.model ⟨4⟩) (.model ⟨1⟩) = kennelSchema.derivesFrom ⟨4⟩ ⟨1⟩ ∧
    kennelSchema.derivesFrom ⟨4⟩ ⟨1⟩ = true ∧ kennelSchema.derivesFrom ⟨4⟩ ⟨3⟩ = false ∧
    (kennelSchema.type ⟨4⟩).property? "name" = (kennelSchema.type ⟨1⟩).property? "name" ∧
    (kennelSchema.type ⟨4⟩).property? "trick" ≠ (kennelSchema.type ⟨2⟩).property? "trick" := by
  obtain ⟨agree, -, -, inherits, -⟩ := subtypes_ordered kennelSchema_assembled
  have pup : kennelSchema.derivesFrom ⟨4⟩ ⟨1⟩ = true := by decide +kernel
  have apart : ∀ v, kennelSchema.Between ⟨4⟩ ⟨1⟩ v →
      ∀ q ∈ (kennelSchema.type v).declared, q.answersTo "name" = false := by
    intro v between
    have among : v ∈ kennelSchema.ancestors ⟨4⟩ := List.contains_iff_mem.1 between.above
    have all : ∀ v ∈ kennelSchema.ancestors ⟨4⟩, v ≠ ⟨1⟩ →
        ∀ q ∈ (kennelSchema.type v).declared, q.answersTo "name" = false := by decide +kernel
    exact all v among between.other
  exact ⟨kennelSchema_assembled, (agree ⟨4⟩ ⟨1⟩).1, pup, by decide +kernel,
    (inherits ⟨4⟩ ⟨1⟩ "name" pup apart).1, by decide +kernel⟩

end Engine

end Overlay
