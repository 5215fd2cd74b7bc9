import Mathlib.Data.List.Dedup
import Overlay.Proofs.Schema.Keys

/-!
# Finding and listing properties

Names and storage keys share the keys of a layer, and what is inserted last has them.  So a property
may lose its name, when one that is stored under this name is inserted after it in the same layer,
and from then on it is not listed.  A property of a base type keeps its storage key when a derived
type declares its name anew, and can still be found there.

* `PropertyLayers.named?` : the property of a name in the most derived layer that lists one;
* `PropertyLayers.mem_visible_iff` : these are the properties that can be seen;
* `PropertyLayers.nodup_visible` : each name is seen once;
* `PropertyLayers.visible_of_get?` : what is found is seen, unless it was found under its storage
  key and has lost its name or is declared anew;
* `PropertyLayers.find_and_list` : **how finding and listing properties agree**, and that they agree
  altogether where no property is stored under the name of another one and a property that is
  declared anew keeps its storage key.
-/

namespace Overlay

namespace PropertyLayer

variable {layer : PropertyLayer} {ps : List Property} {p : Property} {key name : String}

/-- The property of this name, if it is listed under it. -/
def own? (layer : PropertyLayer) (name : String) : Option Property :=
  (layer.get? name).filter (·.name == name)

theorem own?_eq_some : layer.own? name = some p ↔ layer.get? name = some p ∧ p.name = name := by
  simp [own?, Option.filter_eq_some_iff]

/-! ### Each key is listed once -/

theorem keys_put (key : String) (p : Property) (es : List (String × Property)) :
    (put key p es).map Prod.fst =
      if key ∈ es.map Prod.fst then es.map Prod.fst else es.map Prod.fst ++ [key] := by
  induction es with
  | nil => rfl
  | cons e es ih =>
    obtain ⟨k, q⟩ := e
    by_cases h : k = key
    · simp [put, h]
    · have h' : ¬ key = k := fun e => h e.symm
      simp only [put, if_neg h, List.map_cons, ih, List.mem_cons, h', false_or]
      split <;> simp

theorem nodup_put {es : List (String × Property)} (h : (es.map Prod.fst).Nodup) :
    ((put key p es).map Prod.fst).Nodup := by
  rw [keys_put]
  split
  · exact h
  · rename_i fresh
    exact nodup_concat h fresh

theorem nodup_insert (h : (layer.entries.map Prod.fst).Nodup) :
    ((layer.insert p).entries.map Prod.fst).Nodup := by
  unfold insert
  dsimp only
  split
  · exact nodup_put h
  · exact nodup_put (nodup_put h)

theorem nodup_ofList (ps : List Property) : ((ofList ps).entries.map Prod.fst).Nodup := by
  have fold : ∀ (ps : List Property) (layer : PropertyLayer),
      (layer.entries.map Prod.fst).Nodup → ((ps.foldl insert layer).entries.map Prod.fst).Nodup := by
    intro ps
    induction ps with
    | nil => exact fun _ h => h
    | cons p ps ih => exact fun layer h => ih _ (nodup_insert h)
  exact fold ps empty List.nodup_nil

theorem get?_of_mem (nodup : (layer.entries.map Prod.fst).Nodup) (h : (key, p) ∈ layer.entries) :
    layer.get? key = some p := by
  unfold get?
  generalize layer.entries = es at nodup h
  induction es with
  | nil => cases h
  | cons e es ih =>
    obtain ⟨fresh, nodup⟩ := List.nodup_cons.1 nodup
    rw [lookup_cons_ite]
    rcases List.mem_cons.1 h with rfl | h
    · exact if_pos rfl
    · have other : key ≠ e.1 := fun e' => fresh (e' ▸ List.mem_map.2 ⟨(key, p), h, rfl⟩)
      rw [if_neg other, ih nodup h]

theorem mem_of_get?_ofList (h : (ofList ps).get? key = some p) : p ∈ ps :=
  mem_ofList (mem_of_get? h)

/-! ### The properties that a layer declares -/

theorem mem_declared : p ∈ layer.declared ↔ (p.name, p) ∈ layer.entries := by
  unfold declared
  rw [List.mem_filterMap]
  constructor
  · rintro ⟨⟨key, q⟩, he, hq⟩
    dsimp only at hq
    split at hq
    · rename_i own
      cases hq
      rwa [own] at he
    · cases hq
  · exact fun h => ⟨_, h, if_pos rfl⟩

theorem mem_declared_iff (nodup : (layer.entries.map Prod.fst).Nodup) :
    p ∈ layer.declared ↔ layer.own? p.name = some p := by
  rw [mem_declared, own?_eq_some]
  exact ⟨fun h => ⟨get?_of_mem nodup h, rfl⟩, fun h => mem_of_get? h.1⟩

theorem nodup_declared (nodup : (layer.entries.map Prod.fst).Nodup) :
    (layer.declared.map (·.name)).Nodup := by
  refine nodup.sublist ?_
  unfold declared
  generalize layer.entries = es
  induction es with
  | nil => exact .slnil
  | cons e es ih =>
    obtain ⟨key, q⟩ := e
    by_cases own : key = q.name
    · simp only [List.filterMap_cons, if_pos own, List.map_cons]
      exact own ▸ ih.cons_cons _
    · simp only [List.filterMap_cons, if_neg own, List.map_cons]
      exact ih.cons _

/-- A layer has as many properties as there are names that are still listed for a property of the
name. -/
theorem size_ofList (ps : List Property) :
    (ofList ps).size =
      ((ps.map (·.name)).dedup.filter fun name => ((ofList ps).own? name).isSome).length := by
  have nodup := nodup_ofList ps
  have same : ((ofList ps).declared.map (·.name)).Perm
      ((ps.map (·.name)).dedup.filter fun name => ((ofList ps).own? name).isSome) := by
    refine (List.perm_ext_iff_of_nodup (nodup_declared nodup)
      ((List.nodup_dedup _).filter _)).2 fun name => ?_
    rw [List.mem_filter, List.mem_dedup, List.mem_map, List.mem_map, Option.isSome_iff_exists]
    constructor
    · rintro ⟨p, hp, rfl⟩
      have found := (mem_declared_iff nodup).1 hp
      exact ⟨⟨p, mem_ofList (mem_declared.1 hp), rfl⟩, p, found⟩
    · rintro ⟨-, p, found⟩
      obtain ⟨-, rfl⟩ := own?_eq_some.1 found
      exact ⟨p, (mem_declared_iff nodup).2 found, rfl⟩
  rw [size, ← List.length_map (·.name), same.length_eq]

end PropertyLayer

namespace PropertyLayers

open PropertyLayer

variable {ps : PropertyLayers} {p q : Property} {key name : String}

/-- The property of this name in the most derived layer that lists one under its name. -/
def named? (ps : PropertyLayers) (name : String) : Option Property :=
  ps.layers.findSome? (·.own? name)

/-! ### The properties that can be seen -/

theorem firstByName_eq {seen : List String} {qs : List Property}
    (nodup : (qs.map (·.name)).Nodup) :
    visibleAfter.firstByName seen qs = qs.filter fun p => !seen.contains p.name := by
  induction qs generalizing seen with
  | nil => rfl
  | cons p qs ih =>
    obtain ⟨fresh, nodup⟩ := List.nodup_cons.1 nodup
    rw [visibleAfter.firstByName, List.filter_cons]
    cases hp : seen.contains p.name with
    | true => exact ih nodup
    | false =>
      -- the names to come are all different, so another name seen makes no difference to them
      have rest : (qs.filter fun q => !(p.name :: seen).contains q.name) =
          qs.filter fun q => !seen.contains q.name := by
        refine List.filter_congr fun q hq => ?_
        have other : q.name ≠ p.name := fun e => fresh (List.mem_map.2 ⟨q, hq, e⟩)
        simp [other]
      simp only [Bool.false_eq_true, if_false, Bool.not_false, if_true, ih nodup, rest]

theorem mem_visibleAfter {seen : List String} {layers : List PropertyLayer}
    (nodup : ∀ layer ∈ layers, (layer.entries.map Prod.fst).Nodup) :
    p ∈ visibleAfter seen layers ↔
      p.name ∉ seen ∧ layers.findSome? (·.own? p.name) = some p := by
  induction layers generalizing seen with
  | nil => simp [visibleAfter]
  | cons layer rest ih =>
    obtain ⟨first, nodup⟩ := List.forall_mem_cons.1 nodup
    rw [visibleAfter, firstByName_eq (nodup_declared first), List.mem_append, ih nodup,
      List.mem_filter, mem_declared_iff first, List.findSome?_cons]
    by_cases hs : p.name ∈ seen
    · simp [hs]
    · have fresh : (!seen.contains p.name) = true := by simp [hs]
      cases hp : layer.own? p.name with
      | none =>
        -- the layer lists no property of the name, so it makes no difference
        have absent : p.name ∉ ((layer.declared.filter fun p => !seen.contains p.name).map
            (·.name)) := by
          intro h
          obtain ⟨q, hq, e⟩ := List.mem_map.1 h
          have found := (mem_declared_iff first).1 (List.mem_filter.1 hq).1
          rw [e, hp] at found
          cases found
        simp only [List.mem_append, absent, hs, reduceCtorEq, false_and, false_or,
          not_false_eq_true, true_and]
      | some q =>
        obtain ⟨found, own⟩ := own?_eq_some.1 hp
        have present : p.name ∈ ((layer.declared.filter fun p => !seen.contains p.name).map
            (·.name)) := by
          refine List.mem_map.2 ⟨q, List.mem_filter.2 ⟨?_, own ▸ fresh⟩, own⟩
          rw [mem_declared_iff first, own, hp]
        simp only [List.mem_append, present, hs, fresh, not_true_eq_false, false_and, or_false,
          not_false_eq_true, true_and, and_true]

theorem nodup_visibleAfter {seen : List String} {layers : List PropertyLayer}
    (nodup : ∀ layer ∈ layers, (layer.entries.map Prod.fst).Nodup) :
    ((visibleAfter seen layers).map (·.name)).Nodup := by
  induction layers generalizing seen with
  | nil => exact List.nodup_nil
  | cons layer rest ih =>
    obtain ⟨first, nodup⟩ := List.forall_mem_cons.1 nodup
    rw [visibleAfter, List.map_append, List.nodup_append, firstByName_eq (nodup_declared first)]
    refine ⟨(nodup_declared first).sublist (List.filter_sublist.map _), ih nodup, ?_⟩
    rintro name here _ there rfl
    obtain ⟨q, hq, rfl⟩ := List.mem_map.1 there
    exact ((mem_visibleAfter nodup).1 hq).1 (List.mem_append_left _ here)

section Inserted

variable {pss : List (List Property)}

theorem nodup_layers (pss : List (List Property)) :
    ∀ layer ∈ pss.map ofList, (layer.entries.map Prod.fst).Nodup := by
  intro layer h
  obtain ⟨ps, -, rfl⟩ := List.mem_map.1 h
  exact nodup_ofList ps

/-- A property is seen just if it is the one that its name names. -/
theorem mem_visible_iff (pss : List (List Property)) :
    p ∈ visible ⟨pss.map ofList⟩ ↔ named? ⟨pss.map ofList⟩ p.name = some p := by
  rw [visible, mem_visibleAfter (nodup_layers pss), named?]
  simp

theorem nodup_visible (pss : List (List Property)) :
    ((visible ⟨pss.map ofList⟩).map (·.name)).Nodup :=
  nodup_visibleAfter (nodup_layers pss)

theorem count_visible (h : p ∈ visible ⟨pss.map ofList⟩) :
    (visible ⟨pss.map ofList⟩).count p = 1 :=
  List.count_eq_one_of_mem (.of_map _ (nodup_visible pss)) h

theorem mem_flatten_of_get? (h : get? ⟨pss.map ofList⟩ key = some p) : p ∈ pss.flatten := by
  rw [get?_map_ofList] at h
  obtain ⟨qs, hqs, hp⟩ := List.mem_flatMap.1 (List.mem_of_find?_eq_some h)
  exact List.mem_flatten.2 ⟨qs, hqs, List.mem_reverse.1 hp⟩

theorem mem_flatten_of_visible (h : p ∈ visible ⟨pss.map ofList⟩) : p ∈ pss.flatten := by
  obtain ⟨layer, hl, own⟩ := List.exists_of_findSome?_eq_some ((mem_visible_iff pss).1 h)
  obtain ⟨qs, hqs, rfl⟩ := List.mem_map.1 hl
  exact List.mem_flatten.2 ⟨qs, hqs, mem_of_get?_ofList (own?_eq_some.1 own).1⟩

theorem answersTo_of_get? (h : get? ⟨pss.map ofList⟩ key = some p) :
    p.name = key ∨ p.storageKey = key := by
  rw [get?_map_ofList] at h
  simpa [Property.answersTo] using List.find?_some h

/-- What is found was inserted in a layer, and no layer before lists the key. -/
theorem exists_layer_of_get? (h : get? ⟨pss.map ofList⟩ key = some p) :
    ∃ before qs after, pss = before ++ qs :: after ∧
      (∀ rs ∈ before, (ofList rs).get? key = none) ∧ (ofList qs).get? key = some p := by
  induction pss with
  | nil => cases h
  | cons qs pss ih =>
    unfold get? at h
    rw [List.map_cons, List.findSome?_cons] at h
    cases hq : (ofList qs).get? key with
    | some q =>
      rw [hq] at h
      cases h
      exact ⟨[], qs, pss, rfl, nofun, hq⟩
    | none =>
      rw [hq] at h
      obtain ⟨before, rs, after, rfl, others, found⟩ := ih h
      exact ⟨qs :: before, rs, after, rfl, List.forall_mem_cons.2 ⟨hq, others⟩, found⟩

theorem named?_append {before after : List (List Property)} {qs : List Property}
    (others : ∀ rs ∈ before, (ofList rs).own? name = none) :
    named? ⟨(before ++ qs :: after).map ofList⟩ name =
      ((ofList qs).own? name).or (named? ⟨after.map ofList⟩ name) := by
  have none : (before.map ofList).findSome? (·.own? name) = none := by
    refine List.findSome?_eq_none_iff.2 fun layer hl => ?_
    obtain ⟨rs, hrs, rfl⟩ := List.mem_map.1 hl
    exact others rs hrs
  unfold named?
  rw [List.map_append, List.findSome?_append, none, Option.none_or, List.map_cons,
    List.findSome?_cons]
  cases (ofList qs).own? name <;> rfl

/-- What is found is seen, unless it was found under its storage key, and either it has lost its
name in its own layer or a more derived layer declares the name anew. -/
theorem visible_of_get? (h : get? ⟨pss.map ofList⟩ key = some p) :
    p ∈ visible ⟨pss.map ofList⟩ ∨
      key = p.storageKey ∧ key ≠ p.name ∧ ∃ before qs after, pss = before ++ qs :: after ∧
        (∀ rs ∈ before, (ofList rs).get? key = none) ∧ (ofList qs).get? key = some p ∧
        ((ofList qs).get? p.name ≠ some p ∨ ∃ rs ∈ before, ∃ q, (ofList rs).own? p.name = some q) := by
  obtain ⟨before, qs, after, split, others, found⟩ := exists_layer_of_get? h
  by_cases own : (ofList qs).get? p.name = some p
  · by_cases anew : ∃ rs ∈ before, ∃ q, (ofList rs).own? p.name = some q
    · have stored : key ≠ p.name := by
        rintro rfl
        obtain ⟨rs, hrs, q, hq⟩ := anew
        have listed := (own?_eq_some.1 hq).1
        rw [others rs hrs] at listed
        cases listed
      exact Or.inr ⟨((answersTo_of_get? h).resolve_left (Ne.symm stored)).symm, stored,
        before, qs, after, split, others, found, Or.inr anew⟩
    · have none : ∀ rs ∈ before, (ofList rs).own? p.name = none := fun rs hrs =>
        Option.eq_none_iff_forall_ne_some.2 fun q hq => anew ⟨rs, hrs, q, hq⟩
      refine Or.inl ((mem_visible_iff pss).2 ?_)
      rw [split, named?_append none, own?_eq_some.2 ⟨own, rfl⟩]
      rfl
  · have stored : key ≠ p.name := fun e => own (e ▸ found)
    exact Or.inr ⟨((answersTo_of_get? h).resolve_left (Ne.symm stored)).symm, stored,
      before, qs, after, split, others, found, Or.inl own⟩

/-- What is seen is found by its name, unless a more derived layer lists a property there that is
stored under the name. -/
theorem get?_of_visible (h : p ∈ visible ⟨pss.map ofList⟩) :
    get? ⟨pss.map ofList⟩ p.name = some p ∨ ∃ q, get? ⟨pss.map ofList⟩ p.name = some q ∧
      q.storageKey = p.name ∧ q.name ≠ p.name := by
  have named := (mem_visible_iff pss).1 h
  cases hq : get? ⟨pss.map ofList⟩ p.name with
  | none =>
    -- a layer that lists the property under its name is searched by any look-up of the name
    obtain ⟨layer, hl, own⟩ := List.exists_of_findSome?_eq_some named
    have missing := List.findSome?_eq_none_iff.1 hq layer hl
    rw [(own?_eq_some.1 own).1] at missing
    cases missing
  | some q =>
    by_cases own : q.name = p.name
    · left
      obtain ⟨before, qs, after, split, others, found⟩ := exists_layer_of_get? hq
      have apart : ∀ rs ∈ before, (ofList rs).own? p.name = none := fun rs hrs => by
        rw [own?, others rs hrs]
        rfl
      rw [split, named?_append apart, own?_eq_some.2 ⟨found, own⟩] at named
      exact named
    · exact Or.inr ⟨q, rfl, (answersTo_of_get? hq).resolve_left own, own⟩

/-! ### Where keys are kept apart -/

/-- No property is stored under the name of another one, and a property that is declared anew keeps
its storage key. -/
def KeyedApart (pss : List (List Property)) : Prop :=
  ∀ p ∈ pss.flatten, ∀ q ∈ pss.flatten,
    (p.name = q.name → p.storageKey = q.storageKey) ∧ (p.name ≠ q.name → p.storageKey ≠ q.name)

theorem KeyedApart.own? (apart : KeyedApart pss) {qs : List Property} (hqs : qs ∈ pss)
    (hp : p ∈ qs) : ∃ q, (ofList qs).own? p.name = some q ∧ q.storageKey = p.storageKey := by
  have mem : ∀ {q}, q ∈ qs → q ∈ pss.flatten := fun hq => List.mem_flatten.2 ⟨qs, hqs, hq⟩
  cases hq : (ofList qs).get? p.name with
  | none =>
    rw [get?_ofList, List.find?_eq_none] at hq
    exact absurd (by simp [Property.answersTo]) (hq p (List.mem_reverse.2 hp))
  | some q =>
    have listed := hq
    rw [get?_ofList] at listed
    have hq' := mem (mem_of_get?_ofList hq)
    have answers : q.name = p.name ∨ q.storageKey = p.name := by
      simpa [Property.answersTo] using List.find?_some listed
    have own : q.name = p.name := by
      by_contra other
      exact (apart q hq' p (mem hp)).2 other (answers.resolve_left other)
    exact ⟨q, own?_eq_some.2 ⟨hq, own⟩, (apart q hq' p (mem hp)).1 own⟩

theorem KeyedApart.get?_of_visible (apart : KeyedApart pss) (h : p ∈ visible ⟨pss.map ofList⟩) :
    get? ⟨pss.map ofList⟩ p.name = some p := by
  refine (PropertyLayers.get?_of_visible h).resolve_right ?_
  rintro ⟨q, hq, stored, other⟩
  exact (apart q (mem_flatten_of_get? hq) p (mem_flatten_of_visible h)).2 other stored

theorem KeyedApart.visible_of_get? (apart : KeyedApart pss)
    (h : get? ⟨pss.map ofList⟩ key = some p) : p ∈ visible ⟨pss.map ofList⟩ := by
  refine (PropertyLayers.visible_of_get? h).resolve_right ?_
  rintro ⟨rfl, -, before, qs, after, rfl, others, found, cause⟩
  have hp := mem_of_get?_ofList found
  rcases cause with lost | ⟨rs, hrs, q, hq⟩
  · -- what has the name is stored under the same key, and there it is the property itself
    obtain ⟨q, hq, same⟩ := apart.own? (List.mem_append_right _ List.mem_cons_self) hp
    obtain ⟨named, own⟩ := own?_eq_some.1 hq
    refine lost (named.trans ?_)
    rw [get?_ofList] at named found
    exact congrArg some (find?_unique named found (by simp [Property.answersTo])
      (by simp [Property.answersTo, same]))
  · -- what is declared anew is listed under the same storage key, before the property
    obtain ⟨named, own⟩ := own?_eq_some.1 hq
    have hq' := mem_of_get?_ofList named
    have same : q.storageKey = p.storageKey :=
      (apart q (List.mem_flatten.2 ⟨rs, List.mem_append_left _ hrs, hq'⟩) p
        (List.mem_flatten.2 ⟨qs, List.mem_append_right _ List.mem_cons_self, hp⟩)).1 own
    have missing := others rs hrs
    rw [get?_ofList, List.find?_eq_none] at missing
    exact missing q (List.mem_reverse.2 hq') (by simp [Property.answersTo, same])

theorem KeyedApart.size_ofList (apart : KeyedApart pss) {qs : List Property} (hqs : qs ∈ pss) :
    (ofList qs).size = (qs.map (·.name)).dedup.length := by
  rw [PropertyLayer.size_ofList, List.filter_eq_self.2]
  intro name h
  obtain ⟨p, hp, rfl⟩ := List.mem_map.1 (List.mem_dedup.1 h)
  obtain ⟨q, hq, -⟩ := apart.own? hqs hp
  exact Option.isSome_iff_exists.2 ⟨q, hq⟩

/-! ### Finding and listing -/

/-- **How finding and listing properties agree.**  Let every layer be made by inserting properties
in any order, that of the most derived type first.  No two properties that are seen have one name,
and a property is seen just if it is the one listed under its name in the most derived layer that
lists one there.  It is found by its name, unless a more derived layer lists one there that is
stored under the name.  What is found, by any key, is seen, unless it was found under its storage
key and has lost its name or is declared anew.  A layer counts the names that are still listed for a
property of the name. Where no property is stored under the name of another one, and one that is
declared anew keeps its storage key, there are no exceptions. -/
theorem find_and_list (pss : List (List Property)) :
    let ps : PropertyLayers := ⟨pss.map ofList⟩
    (ps.visible.map (·.name)).Nodup ∧ (∀ p, p ∈ ps.visible ↔ ps.named? p.name = some p) ∧
      (∀ p ∈ ps.visible, ps.get? p.name = some p ∨ ∃ q, ps.get? p.name = some q ∧
        q.storageKey = p.name ∧ q.name ≠ p.name) ∧
      (∀ key p, ps.get? key = some p → ps.visible.count p = 1 ∨
        key = p.storageKey ∧ key ≠ p.name ∧ ∃ before qs after, pss = before ++ qs :: after ∧
          (∀ rs ∈ before, (ofList rs).get? key = none) ∧ (ofList qs).get? key = some p ∧
          ((ofList qs).get? p.name ≠ some p ∨
            ∃ rs ∈ before, ∃ q, (ofList rs).own? p.name = some q)) ∧
      (∀ qs ∈ pss, (ofList qs).size =
        ((qs.map (·.name)).dedup.filter fun name => ((ofList qs).own? name).isSome).length) ∧
      (KeyedApart pss → (∀ p ∈ ps.visible, ps.get? p.name = some p) ∧
        (∀ key p, ps.get? key = some p → ps.visible.count p = 1) ∧
        ∀ qs ∈ pss, (ofList qs).size = (qs.map (·.name)).dedup.length) := by
  refine ⟨nodup_visible pss, fun _ => mem_visible_iff pss, fun _ h => get?_of_visible h,
    fun key p h => (visible_of_get? h).imp_left count_visible,
    fun qs _ => PropertyLayer.size_ofList qs, fun apart => ⟨?_, ?_, ?_⟩⟩
  · exact fun p h => apart.get?_of_visible h
  · exact fun key p h => count_visible (apart.visible_of_get? h)
  · exact fun qs hqs => apart.size_ofList hqs

/-- A text of this name, stored under this key. -/
def textAt (name storageKey : String) : Property :=
  ⟨name, storageKey, .builtin .string, [], none, none, true⟩

/-- A type declares a property anew that its base stores under another key. -/
def anew : List (List Property) := [[textAt "a" "a"], [textAt "a" "k"]]

/-- A type declares a property, and then one that is stored under the name of the first. -/
def stacked : List Property := [textAt "b" "b", textAt "a" "b"]

/-- What is declared anew is still found under its old storage key, and not seen.  Where a property
is stored under the name of another one, the other one is not seen, and one is counted for two
names. -/
theorem old_key_finds_shadowed :
    (get? ⟨anew.map ofList⟩ "k" = some (textAt "a" "k") ∧
      visible ⟨anew.map ofList⟩ = [textAt "a" "a"]) ∧
    visible ⟨[ofList stacked]⟩ = [textAt "a" "b"] ∧ (ofList stacked).size = 1 ∧
      (stacked.map (·.name)).dedup = ["b", "a"] := by
  decide

end Inserted

end PropertyLayers

end Overlay
