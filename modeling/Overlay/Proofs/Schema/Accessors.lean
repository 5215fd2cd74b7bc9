import Overlay.Proofs.Schema.Ancestry
import Overlay.Proofs.Schema.Visible

/-!
# Accessors and layers

A property that a type declares gets two accessors and an entry in a layer, and an instance looks
both up along the ancestry. A look-up of an accessor takes the first property declared whose name is
the same with a capital, and one of a name takes the last entry of the most derived layer that lists
the name. `Schema.accessed?` is the former.

* `Schema.Assembled.layered` : accessors and layers are made from the same declarations;
* `Schema.callee?_get`, `Schema.callee?_set` : what the names of accessors stand for;
* `Schema.Composed.accessed?_eq` : **the accessors of a name are those of the property that the name
  finds**, if this has the name and the first property declared with that capital has it too.
-/

namespace Overlay

open PropertyLayer

/-! ### What a type declares itself -/

/-- The properties that a type declares itself, in order. -/
def ModelType.declared (t : ModelType) : List Property :=
  t.accessors.filterMap fun e =>
    match e.2 with
    | .read p => some p
    | _ => none

/-- The layer of these properties, if there are any. -/
def ModelType.ownLayers (t : ModelType) : List PropertyLayer :=
  if t.declared.isEmpty then [] else [.ofList t.declared]

theorem ModelType.declared_extended (baseId : TypeId) (base : ModelType) (ext : Extension)
    (ps : List Property) : (ModelType.extended baseId base ext ps).declared = ps := by
  show (ps.flatMap Property.accessors).filterMap _ = ps
  induction ps with
  | nil => rfl
  | cons p ps ih =>
    rw [List.flatMap_cons, List.filterMap_append, ih]
    rfl

/-- The accessors of a name with a capital are those of the first property with that capital. -/
theorem Property.lookup_accessors (ps : List Property) (name : String) :
    (ps.flatMap accessors).lookup ("get" ++ capitalize name) =
        (ps.find? (capitalize ·.name == capitalize name)).map .read ∧
      (ps.flatMap accessors).lookup ("set" ++ capitalize name) =
        (ps.find? (capitalize ·.name == capitalize name)).map .write := by
  have same : ∀ front x y : String, (front ++ x == front ++ y) = (x == y) := by
    intro front x y
    rw [Bool.eq_iff_iff, beq_iff_eq, beq_iff_eq]
    exact String.append_right_inj front
  have different : ∀ x y : String, "get" ++ x ≠ "set" ++ y := by
    intro x y h
    have first := congrArg (·.toList.head?) h
    rw [String.toList_append, String.toList_append] at first
    simp at first
  have getSet : ∀ x y : String, ("get" ++ x == "set" ++ y) = false := fun x y =>
    beq_eq_false_iff_ne.2 (different x y)
  have setGet : ∀ x y : String, ("set" ++ x == "get" ++ y) = false := fun x y =>
    beq_eq_false_iff_ne.2 (different y x).symm
  induction ps with
  | nil => exact ⟨rfl, rfl⟩
  | cons p ps ih =>
    simp only [List.flatMap_cons, accessors, List.cons_append, List.nil_append, List.lookup_cons,
      List.find?_cons, same, getSet, setGet, BEq.comm (a := capitalize name)]
    cases capitalize p.name == capitalize name
    · exact ih
    · exact ⟨rfl, rfl⟩

namespace Schema

variable {s : Schema} {t u : TypeId}

/-- The properties that a type and those it derives from declare, type by type, the most derived
one first. -/
def levels (s : Schema) (t : TypeId) : List (List Property) :=
  (s.ancestors t).map fun u => (s.type u).declared

/-- Of the properties declared along the ancestry, the first whose name is this one with a
capital. -/
def accessed? (s : Schema) (t : TypeId) (name : String) : Option Property :=
  (s.levels t).flatten.find? (capitalize ·.name == capitalize name)

/-! ### Accessors and layers come from the same declarations -/

/-- Every type has the accessors of the properties that it declares, and their layer on those of its
base. -/
structure Layered (s : Schema) : Prop where
  /-- There are two accessors for each property. -/
  accessors : ∀ t, (s.type t).accessors = (s.type t).declared.flatMap Property.accessors
  /-- There is a layer if there is a property. -/
  layers : ∀ t, (s.type t).properties.layers = (s.type t).ownLayers ++
    (s.type t).base.elim [] fun b => (s.type b).properties.layers

theorem Layered.addModel (layered : s.Layered) (inherits : s.Inherits) {base : TypeId}
    (hb : base.index < s.models.size) (ext : Extension) (ps : List Property) :
    (s.addModel (.extended base (s.type base) ext ps)).2.Layered where
  accessors t := by
    rw [type_addModel]
    split
    · rw [ModelType.declared_extended]
      rfl
    · exact layered.accessors t
  layers t := by
    -- the base of a type is at an earlier place, so it is there before
    have before : ∀ b : TypeId, b.index < s.models.size →
        (s.addModel (.extended base (s.type base) ext ps)).2.type b = s.type b := fun b lt => by
      rw [type_addModel, if_neg (Nat.ne_of_lt lt)]
    by_cases ht : t.index = s.models.size
    · have new : (s.addModel (.extended base (s.type base) ext ps)).2.type t =
          .extended base (s.type base) ext ps := by rw [type_addModel, if_pos ht]
      rw [new, ModelType.ownLayers, ModelType.declared_extended]
      show (if ps.isEmpty then _ else _ : PropertyLayers).layers = _ ++
        ((s.addModel (.extended base (s.type base) ext ps)).2.type base).properties.layers
      rw [before base hb]
      split <;> rfl
    · have old : (s.addModel (.extended base (s.type base) ext ps)).2.type t = s.type t := by
        rw [type_addModel, if_neg ht]
      rw [old, layered.layers t]
      cases hbase : (s.type t).base with
      | none => rfl
      | some b =>
        have lt := Nat.lt_trans (inherits.base_lt t b hbase) (lt_size_of_base hbase)
        exact congrArg (_ ++ ·.properties.layers) (before b lt).symm

theorem Assembled.layered (h : s.Assembled) : s.Layered := by
  refine h.types_induction (P := Layered) ?_
    (fun s base ext ps before known ih => ih.addModel before.inherits known ext ps)
    fun s a ih => ⟨ih.accessors, ih.layers⟩
  constructor <;>
  · intro t
    rw [type_root]
    rfl

/-- The layers of a type are those of the types along its ancestry that declare properties. -/
theorem Layered.layers_eq (layered : s.Layered) (inherits : s.Inherits) (t : TypeId) :
    (s.type t).properties.layers =
      ((s.levels t).filter fun ps => !ps.isEmpty).map PropertyLayer.ofList := by
  have own : ∀ t, (s.type t).ownLayers =
      ([(s.type t).declared].filter fun ps => !ps.isEmpty).map PropertyLayer.ofList := by
    intro t
    rw [ModelType.ownLayers]
    cases (s.type t).declared <;> rfl
  have along : ∀ (bound : Nat) (t : TypeId), (∀ b, (s.type t).base = some b → b.index < bound) →
      (s.type t).properties.layers = ((((s.ancestorsWithin (bound + 1) t).map fun u =>
        (s.type u).declared)).filter fun ps => !ps.isEmpty).map PropertyLayer.ofList := by
    intro bound
    induction bound with
    | zero =>
      intro t root
      rw [layered.layers t, own t, ancestorsWithin]
      cases hb : (s.type t).base with
      | none => simp
      | some b => exact absurd (root b hb) (Nat.not_lt_zero _)
    | succ bound ih =>
      intro t below
      rw [layered.layers t, own t, ancestorsWithin]
      cases hb : (s.type t).base with
      | none => simp
      | some b =>
        have further := ih b fun b' hb' =>
          Nat.lt_of_lt_of_le (inherits.base_lt b b' hb') (Nat.le_of_lt_succ (below b hb))
        rw [Option.elim_some, Option.elim_some, further, List.map_cons, ← List.map_append,
          ← List.filter_append]
        rfl
  refine along (s.models.size + s.adapters.size) t fun b hb => ?_
  have lt := inherits.base_lt t b hb
  have there := lt_size_of_base hb
  omega

/-! ### Looking both up -/

section Accessed

variable {name : String} {p q : Property}

/-- No type along the ancestry declares a method of this name. -/
def NoMethod (s : Schema) (t : TypeId) (name : String) : Prop :=
  ∀ u ∈ s.ancestors t, name ∉ (s.type u).methods.map Prod.fst

theorem lookup_methods_of_noMethod {t u : TypeId} (none : s.NoMethod t name)
    (hu : u ∈ s.ancestors t) : (s.type u).methods.reverse.lookup name = .none := by
  rw [List.lookup_eq_none_iff]
  intro e he
  rw [bne_iff_ne]
  rintro rfl
  exact none u hu (List.mem_map_of_mem (List.mem_reverse.1 he))

/-- Where no method is in the way, a name that stands for accessors stands for that of the first
property declared along the ancestry that has it. -/
theorem callee?_of_accessors (layered : s.Layered) {accessor : String} {has : Property → Bool}
    {callee : Property → Callee}
    (accessors : ∀ ps : List Property,
      (ps.flatMap Property.accessors).lookup accessor = (ps.find? has).map callee)
    (none : s.NoMethod t accessor) :
    s.callee? t accessor = ((s.levels t).flatten.find? has).map callee := by
  have own : ∀ u ∈ s.ancestors t,
      ownCallee? (s.type u) accessor = ((s.type u).declared.find? has).map callee := by
    intro u hu
    rw [ownCallee?, lookup_methods_of_noMethod none hu, layered.accessors u, accessors]
    rfl
  rw [callee?, levels, List.find?_flatten, List.findSome?_map]
  generalize s.ancestors t = us at own
  induction us with
  | nil => rfl
  | cons u us ih =>
    obtain ⟨first, own⟩ := List.forall_mem_cons.1 own
    rw [List.findSome?_cons, List.findSome?_cons, first, ih own]
    dsimp only [Function.comp_apply]
    cases (s.type u).declared.find? has <;> rfl

/-- Where no method is in the way, the accessor for reading reads the property accessed. -/
theorem callee?_get (layered : s.Layered) (none : s.NoMethod t ("get" ++ capitalize name)) :
    s.callee? t ("get" ++ capitalize name) = (s.accessed? t name).map .read :=
  callee?_of_accessors layered (fun ps => (Property.lookup_accessors ps name).1) none

/-- Where no method is in the way, the accessor for writing writes the property accessed. -/
theorem callee?_set (layered : s.Layered) (none : s.NoMethod t ("set" ++ capitalize name)) :
    s.callee? t ("set" ++ capitalize name) = (s.accessed? t name).map .write :=
  callee?_of_accessors layered (fun ps => (Property.lookup_accessors ps name).2) none

end Accessed

/-! ### The property that is accessed -/

/-- No type declares two properties of one name. -/
def NamesApart (s : Schema) : Prop := ∀ t, ((s.type t).declared.map (·.name)).Nodup

theorem Assembled.properties_eq (h : s.Assembled) (t : TypeId) : (s.type t).properties =
    ⟨((s.levels t).filter fun ps => !ps.isEmpty).map PropertyLayer.ofList⟩ :=
  congrArg PropertyLayers.mk (h.layered.layers_eq h.inherits t)

theorem flatten_filter_isEmpty {α : Type} (xss : List (List α)) :
    (xss.filter fun xs => !xs.isEmpty).flatten = xss.flatten := by
  induction xss with
  | nil => rfl
  | cons xs xss ih => cases xs <;> simp [ih]

theorem Assembled.exists_accessed {p : Property} (h : s.Assembled)
    (hp : p ∈ (s.type t).properties.visible) : ∃ q, s.accessed? t p.name = some q := by
  rw [h.properties_eq t] at hp
  have declared := PropertyLayers.mem_flatten_of_visible hp
  rw [flatten_filter_isEmpty] at declared
  rw [accessed?, ← Option.isSome_iff_exists, List.find?_isSome]
  exact ⟨p, declared, beq_self_eq_true _⟩

/-- Of different names in each layer, the last one found under a name and the first one accessed are
one property if both have that name. -/
theorem accessed_eq_found {p q : Property} {name : String} {pss : List (List Property)}
    (apart : ∀ ps ∈ pss, (ps.map (·.name)).Nodup)
    (found : (pss.map ofList).findSome? (·.get? name) = some p) (hp : p.name = name)
    (accessed : pss.flatten.find? (capitalize ·.name == capitalize name) = some q)
    (hq : q.name = name) : q = p := by
  induction pss with
  | nil => cases found
  | cons ps pss ih =>
    obtain ⟨first, apart⟩ := List.forall_mem_cons.1 apart
    rw [List.map_cons, List.findSome?_cons] at found
    rw [List.flatten_cons, List.find?_append] at accessed
    cases here : (ofList ps).get? name with
    | some p' =>
      rw [here] at found
      obtain rfl : p' = p := Option.some.inj found
      have hp' : p' ∈ ps := mem_of_get?_ofList here
      cases capital : ps.find? (capitalize ·.name == capitalize name) with
      | none =>
        have := List.find?_eq_none.1 capital p' hp'
        rw [hp] at this
        exact absurd (beq_self_eq_true _) this
      | some q' =>
        rw [capital] at accessed
        obtain rfl : q' = q := Option.some.inj accessed
        exact List.inj_on_of_nodup_map first (List.mem_of_find?_eq_some capital) hp'
          (hq.trans hp.symm)
    | none =>
      rw [here] at found
      cases capital : ps.find? (capitalize ·.name == capitalize name) with
      | none =>
        rw [capital] at accessed
        exact ih apart found accessed
      | some q' =>
        -- it would be listed under its name
        rw [capital] at accessed
        obtain rfl : q' = q := Option.some.inj accessed
        rw [get?_ofList, List.find?_eq_none] at here
        have := here q' (List.mem_reverse.2 (List.mem_of_find?_eq_some capital))
        simp [Property.answersTo, hq] at this

end Schema

/-! ### Schemas of programs -/

theorem Extension.nodup_declarations (ds : List (String × Declaration)) :
    ((declarations ds).map Prod.fst).Nodup := by
  have names : ∀ (name : String) (d : Declaration) (before : List (String × Declaration)),
      (declare name d before).map Prod.fst =
        if name ∈ before.map Prod.fst then before.map Prod.fst
        else before.map Prod.fst ++ [name] := by
    intro name d before
    induction before with
    | nil => rfl
    | cons e before ih =>
      obtain ⟨n, d'⟩ := e
      by_cases here : n = name
      · simp [declare, here]
      · rw [declare, if_neg here, List.map_cons, ih]
        simp only [List.map_cons, List.mem_cons, Ne.symm here, false_or]
        split <;> rfl
  have fold : ∀ (ds before : List (String × Declaration)), (before.map Prod.fst).Nodup →
      ((ds.foldl (fun before e => declare e.1 e.2 before) before).map Prod.fst).Nodup := by
    intro ds
    induction ds with
    | nil => exact fun _ nodup => nodup
    | cons e ds ih =>
      refine fun before nodup => ih _ ?_
      rw [names]
      split
      · exact nodup
      · rename_i new
        exact nodup_concat nodup new
  exact fold ds [] List.nodup_nil

theorem Property.name_of_declare {scope : Scope} {name : String} {d : Declaration} {p : Property}
    (h : declare scope name d = .ok p) : p.name = name := by
  unfold declare at h
  cases hs : d.shape scope with
  | error _ =>
    rw [hs] at h
    cases h
  | ok shape =>
    rw [hs] at h
    cases d <;> cases h <;> rfl

theorem names_of_declareAll {scope : Scope} {ds : List (String × Declaration)} {ps : List Property}
    (h : declareAll scope ds = .ok ps) : ps.map (·.name) = ds.map Prod.fst := by
  induction ds generalizing ps with
  | nil =>
    cases h
    rfl
  | cons e ds ih =>
    obtain ⟨name, d⟩ := e
    rw [declareAll] at h
    cases hp : Property.declare scope name d with
    | error _ =>
      rw [hp] at h
      cases h
    | ok p =>
      cases hr : declareAll scope ds with
      | error _ =>
        rw [hp, hr] at h
        cases h
      | ok rest =>
        rw [hp, hr] at h
        cases h
        rw [List.map_cons, List.map_cons, ih hr, Property.name_of_declare hp]

namespace Schema

variable {s : Schema} {t : TypeId}

/-- The schemas that programs come by: the declarations of an extension are keyed by their names. -/
inductive Composed : Schema → Prop
  /-- The root alone. -/
  | initial : Composed .initial
  /-- A type derived from one that is there, with one declaration for each name. -/
  | derive {s s' : Schema} {base t : TypeId} {ext : Extension} {scope : Scope}
      (before : Composed s) (known : base.index < s.models.size)
      (declarations : List (String × Declaration))
      (keyed : ext.properties = Extension.declarations declarations)
      (result : s.derive base ext scope = .ok (t, s')) : Composed s'
  /-- An enumeration. -/
  | enumerate {s s' : Schema} {spec : Enumeration.Spec} {e : Enumeration} {h h' : Heap}
      (before : Composed s) (result : Enumeration.define spec s h = .ok (e, s', h')) : Composed s'
  /-- An adapter. -/
  | adapter {s : Schema} (a : AdapterType) (before : Composed s) : Composed (s.addAdapter a).2

theorem Composed.assembled (h : s.Composed) : s.Assembled := by
  induction h with
  | initial => exact .initial
  | derive _ known _ _ result ih => exact ih.derive known result
  | enumerate _ result ih => exact ih.enumerate result
  | adapter a _ ih => exact .adapter a ih

theorem Composed.namesApart (h : s.Composed) : s.NamesApart := by
  have added : ∀ {s : Schema} (base : TypeId) (ext : Extension) {ps : List Property},
      s.NamesApart → (ps.map (·.name)).Nodup →
        (s.addModel (.extended base (s.type base) ext ps)).2.NamesApart := by
    intro s base ext ps apart nodup t
    rw [type_addModel]
    split
    · rwa [ModelType.declared_extended]
    · exact apart t
  induction h with
  | initial =>
    intro t
    rw [type_root]
    exact List.nodup_nil
  | @derive s s' base t ext scope before known declarations keyed result ih =>
    rcases declared : declareAll scope ext.properties with e | ps
    · simp only [Schema.derive, declared, bind, Except.bind] at result
      cases result
    · rw [derive_schema declared result]
      refine added base ext ih ?_
      rw [names_of_declareAll declared, keyed]
      exact Extension.nodup_declarations declarations
  | enumerate before result ih =>
    rw [Enumeration.define_schema result]
    exact added .root _ ih List.nodup_nil
  | adapter a before ih => exact ih

/-- The accessors of a name are those of the property that the name finds, if that has the name and
the first property declared with that capital has it too. -/
theorem Composed.accessed?_eq {p q : Property} {name : String} (h : s.Composed)
    (found : (s.type t).property? name = some p) (hp : p.name = name)
    (accessed : s.accessed? t name = some q) (hq : q.name = name) : q = p := by
  rw [ModelType.property?, h.assembled.properties_eq t] at found
  rw [accessed?, ← flatten_filter_isEmpty] at accessed
  refine accessed_eq_found (fun ps hps => ?_) found hp accessed hq
  obtain ⟨u, -, rfl⟩ := List.mem_map.1 (List.mem_filter.1 hps).1
  exact h.namesApart u

end Schema

end Overlay
