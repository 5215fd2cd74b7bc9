import Mathlib.Data.List.Nodup
import Mathlib.Data.List.TakeWhile
import Overlay.Proofs.Heap.Equality
import Overlay.Proofs.Schema.Built

/-!
# Looking constants up

An enumeration looks a name up before it looks for a raw value, and takes the first constant with
an equal one.  So whether a constant is found again by its own raw value depends on the names and
raw values of the others: this is `Constants.Tells`.

* `Schema.Built.distinct` : the constants of an enumeration have names and instances of their own;
* `Constants.named?_iff`, `Constants.named?_self_iff` : when a constant is found by a name, and by
  its own;
* `Constants.tells_iff` : **when it is found by its own raw value**;
* `Constants.Tells.insert` : then it still is once that value is written somewhere.
-/

namespace Overlay

/-- No two constants have the same name, and no two are the same instance. -/
structure Constants.Distinct (cs : Constants) : Prop where
  /-- The names are different. -/
  names : (cs.all.map (·.name)).Nodup
  /-- The instances are different. -/
  models : (cs.all.map (·.model)).Nodup

/-! ### Constants of a schema -/

namespace Enumeration

variable {spec : Spec} {s s' : Schema} {h h' : Heap} {e : Enumeration}

theorem names_addInstances (t : TypeId) (values : List (String × Value)) (h : Heap) :
    (addInstances t values h).1.map (·.name) = values.map Prod.fst := by
  induction values generalizing h with
  | nil => rfl
  | cons e values ih =>
    rw [List.map_cons, ← ih (h.addModel t e.2).2]
    rfl

theorem models_addInstances (t : TypeId) (values : List (String × Value)) (h : Heap) :
    (addInstances t values h).1.map (·.model.index) = List.range' h.models.size values.length := by
  induction values generalizing h with
  | nil => rfl
  | cons e values ih =>
    have size : (h.addModel t e.2).2.models.size = h.models.size + 1 := Array.size_push _
    rw [List.length_cons, List.range'_succ, ← size, ← ih (h.addModel t e.2).2]
    rfl

theorem define_distinct (result : define spec s h = .ok (e, s', h')) : e.constants.Distinct := by
  obtain ⟨unique, rfl, -⟩ := define_ok result
  refine ⟨(names_addInstances ..).symm ▸ unique, ?_⟩
  have indices : ((addInstances s.nextModel spec.values h).1.map (·.model.index)).Nodup := by
    rw [models_addInstances]
    exact List.nodup_range'
  rw [show (fun c : Constant => c.model.index) = ModelId.index ∘ (·.model) from rfl,
    ← List.map_map] at indices
  exact List.Nodup.of_map _ indices

end Enumeration

/-- The constants of an enumeration have names and instances of their own. -/
theorem Schema.Built.distinct {s : Schema} (hs : s.Built) {t : TypeId} {cs : Constants}
    (hw : (s.type t).wrap = .custom (.constants cs)) : cs.Distinct := by
  induction hs with
  | initial =>
    rw [type_root] at hw
    cases hw
  | derive _ _ free declared _ result ih =>
    rw [derive_schema declared result, type_addModel] at hw
    split at hw
    · exact absurd hw (free.wrap _)
    · exact ih hw
  | enumerate _ result ih =>
    rw [Enumeration.define_schema result, type_addModel] at hw
    split at hw
    · cases hw
      exact Enumeration.define_distinct result
    · exact ih hw

/-! ### Finding -/

theorem find?_eq_some_iff_takeWhile {α : Type} [DecidableEq α] {l : List α} {p : α → Bool} {a : α}
    (ha : a ∈ l) :
    l.find? p = some a ↔ p a = true ∧ ∀ d ∈ l.takeWhile (· ≠ a), p d = false := by
  induction l with
  | nil => cases ha
  | cons b l ih =>
    by_cases e : b = a
    · subst e
      cases hb : p b with
      | true => simp [hb]
      | false =>
        have : l.find? p ≠ some b := fun h => by
          rw [List.find?_some h] at hb
          cases hb
        simp [hb, this]
    · have ha : a ∈ l := (List.mem_cons.1 ha).resolve_left fun h => e h.symm
      cases hb : p b with
      | true => simp [hb, e]
      | false => simp [hb, e, ih ha]

namespace Constants

variable {cs : Constants} {s : Schema} {h : Heap} {t : TypeId} {a : Constant}

/-- The constants that are declared before a constant. -/
def before (cs : Constants) (a : Constant) : List Constant := cs.all.takeWhile (· ≠ a)

namespace Distinct

variable {b : Constant}

theorem eq_of_name (distinct : cs.Distinct) (ha : a ∈ cs.all) (hb : b ∈ cs.all)
    (h : b.name = a.name) : b = a :=
  List.inj_on_of_nodup_map distinct.names hb ha h

theorem eq_of_model (distinct : cs.Distinct) (ha : a ∈ cs.all) (hb : b ∈ cs.all)
    (h : b.model = a.model) : b = a :=
  List.inj_on_of_nodup_map distinct.models hb ha h

end Distinct

/-- What a name is looked up as. -/
def key (cs : Constants) (name : String) : String :=
  if cs.upperCased then upperCase name else name

/-- A constant is found if it has the name that is looked up, or if none has and it is the first
that has it in upper case. -/
theorem named?_iff (distinct : cs.Distinct) (ha : a ∈ cs.all) (name : String) :
    cs.named? name = some a ↔ a.name = cs.key name ∨
      (∀ d ∈ cs.all, d.name ≠ cs.key name) ∧ upperCase a.name = cs.key name ∧
        ∀ d ∈ cs.before a, upperCase d.name ≠ cs.key name := by
  -- names are different, so the first constant of a name is the only one
  have exactly : ∀ key, cs.all.find? (·.name == key) = some a ↔ a.name = key := by
    intro key
    refine ⟨fun h => by simpa using List.find?_some h, fun h => ?_⟩
    rw [find?_eq_some_iff_takeWhile ha]
    refine ⟨by simpa using h, fun d hd => ?_⟩
    have different : d ≠ a := by simpa using List.mem_takeWhile_imp hd
    have there := (List.takeWhile_sublist _).mem hd
    rw [beq_eq_false_iff_ne, ← h]
    exact fun e => different (distinct.eq_of_name ha there e)
  show (cs.all.find? (·.name == cs.key name)).or (cs.all.find? (upperCase ·.name == cs.key name)) =
    some a ↔ _
  rw [Option.or_eq_some_iff, exactly, List.find?_eq_none, find?_eq_some_iff_takeWhile ha]
  simp only [beq_iff_eq, beq_eq_false_iff_ne, before]

/-- A constant is found by its own name, unless names are put into upper case and this one is
different in upper case: then it must be the first with this name in upper case, and no constant may
have that for its name. -/
theorem named?_self_iff (distinct : cs.Distinct) (ha : a ∈ cs.all) :
    cs.named? a.name = some a ↔
      (cs.upperCased = true → upperCase a.name = a.name ∨
        (∀ d ∈ cs.all, d.name ≠ upperCase a.name) ∧
          ∀ d ∈ cs.before a, upperCase d.name ≠ upperCase a.name) := by
  rw [named?_iff distinct ha, key]
  cases cs.upperCased with
  | false => simp
  | true => simp [eq_comm (a := a.name)]

/-- A constant is told from the others by its raw value.  A value that is the name of a constant
stands for that one, and another for the first constant that has an equal value. -/
structure Tells (cs : Constants) (h : Heap) (a : Constant) : Prop where
  /-- The raw value is something. -/
  something : (h.data a.model).isNothing = false
  /-- It is no model. -/
  plain : (h.data a.model).isModel = false
  /-- It is not the name of another constant. -/
  name : ∀ n, h.data a.model = .string n → ∀ d, cs.named? n = some d → d = a
  /-- Unless it is the constant's name, it equals itself and nothing before it. -/
  first : (∀ n, h.data a.model = .string n → cs.named? n = none) →
    h.data a.model ≠ .number .nan ∧
      ∀ d ∈ cs.before a, h.equal (h.data d.model) (h.data a.model) = false

/-- A raw value denotes a constant just if it tells the constant from the others. -/
theorem tells_iff (ha : a ∈ cs.all) (plain : (h.data a.model).isModel = false) :
    cs.Tells h a ↔ (h.data a.model).isNothing = false ∧
      cs.denoted? s h t (h.data a.model) = some a := by
  have valued : cs.valued? h (h.data a.model) = some a ↔ h.data a.model ≠ .number .nan ∧
      ∀ d ∈ cs.before a, h.equal (h.data d.model) (h.data a.model) = false := by
    rw [valued?, find?_eq_some_iff_takeWhile ha, Heap.equal_self_iff]
    rfl
  have parts : cs.Tells h a ↔ (h.data a.model).isNothing = false ∧
      (∀ n, h.data a.model = .string n → ∀ d, cs.named? n = some d → d = a) ∧
        ((∀ n, h.data a.model = .string n → cs.named? n = none) →
          cs.valued? h (h.data a.model) = some a) :=
    ⟨fun ⟨something, _, name, first⟩ => ⟨something, name, fun none => valued.2 (first none)⟩,
      fun ⟨something, name, first⟩ => ⟨something, plain, name, fun none => valued.1 (first none)⟩⟩
  rw [parts]
  refine and_congr_right fun _ => ?_
  cases hd : h.data a.model with
  | model m => cases hd ▸ plain
  | string n =>
    cases hn : cs.named? n with
    | none => simp [denoted?, hn]
    | some d => simp [denoted?, hn]
  | _ => simp [denoted?]

/-- Writing a constant's raw value does not make it the raw value of an earlier one, unless the
record then contains itself. -/
theorem Tells.insert {r : RecordId} {key : String} (told : cs.Tells h a)
    (hr : h.Holds (.record r)) (avoids : h.Avoids r (h.data a.model)) {n : Nat}
    (nested : h.Nested n (h.data a.model)) : cs.Tells (h.insert r key (h.data a.model)) a := by
  obtain ⟨something, plain, name, first⟩ := told
  refine ⟨something, plain, name, fun none => ⟨(first none).1, fun d hd => ?_⟩⟩
  have data : ∀ m, (h.insert r key (h.data a.model)).data m = h.data m := fun _ => rfl
  rw [data, data]
  -- an earlier raw value that leads to the record is nested deeper than this one now
  by_cases into : h.Reachable [h.data d.model] (.record r)
  · refine Heap.not_equal_insert hr (fun e => ?_) nested avoids into
    rw [e] at something
    cases something
  · rw [Heap.equal_insert into avoids]
    exact (first none).2 d hd

end Constants

end Overlay
