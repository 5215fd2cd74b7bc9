import Overlay.Proofs.Schema.Ancestry

/-!
# Schemas with hooks

A type is declared with types that are there already, whatever hooks it brings, so the types of a
`Schema.Stratified` schema are stratified by their places.  Those without hooks are among them:
`Schema.Built` schemas are stratified.

* `Schema.Stratified.placedAt` : a type is declared with earlier ones.
-/

namespace Overlay.Schema

variable {s : Schema}

/-- The schemas that come about by deriving types, whatever hooks these bring, by making
enumerations and by adding adapters.  The model types that properties are declared with are
there. -/
inductive Stratified : Schema → Prop
  /-- The root alone. -/
  | initial : Stratified .initial
  /-- A type derived from one that is there and declared with such types. -/
  | derive {s s' : Schema} {base t : TypeId} {ext : Extension} {scope : Scope} {ps : List Property}
      (before : Stratified s) (known : base.index < s.models.size)
      (declared : declareAll scope ext.properties = .ok ps)
      (earlier : ∀ p ∈ ps, ∀ u, .model u ∈ p.type :: p.elements → u.index < s.models.size)
      (result : s.derive base ext scope = .ok (t, s')) : Stratified s'
  /-- An enumeration. -/
  | enumerate {s s' : Schema} {spec : Enumeration.Spec} {e : Enumeration} {h h' : Heap}
      (before : Stratified s) (result : Enumeration.define spec s h = .ok (e, s', h')) :
      Stratified s'
  /-- An adapter. -/
  | adapter {s : Schema} (a : AdapterType) (before : Stratified s) : Stratified (s.addAdapter a).2

theorem Built.stratified (h : s.Built) : s.Stratified := by
  induction h with
  | initial => exact .initial
  | derive _ known _ declared plain result ih =>
    exact ih.derive known declared (fun p hp => (plain p hp).earlier) result
  | enumerate _ result ih => exact ih.enumerate result

namespace Stratified

theorem assembled (h : s.Stratified) : s.Assembled := by
  induction h with
  | initial => exact .initial
  | derive _ known _ _ result ih => exact ih.derive known result
  | enumerate _ result ih => exact ih.enumerate result
  | adapter a _ ih => exact ih.adapter a

theorem placedAt (h : s.Stratified) (t : TypeId) : (s.type t).PlacedAt t.index := by
  induction h generalizing t with
  | initial => exact type_root t ▸ ModelType.placedAt_root _
  | @derive s s' base u ext scope ps _ known declared earlier result ih =>
    rw [derive_schema declared result, type_addModel]
    split
    · rename_i ht
      rw [ht]
      exact ModelType.placedAt_extended ((ih base).mono (Nat.le_of_lt known)) known earlier
    · exact ih t
  | @enumerate s s' spec e h h' before result ih =>
    rw [Enumeration.define_schema result, type_addModel]
    split
    · rename_i ht
      exact ModelType.placedAt_extended ((ih .root).mono (Nat.zero_le _))
        (ht ▸ before.assembled.inherits.size_pos) nofun
    · exact ih t
  | adapter _ _ ih => exact ih t

end Stratified

end Overlay.Schema
