import Overlay.Engine.Calls
import Overlay.Proofs.Engine.Runs
import Overlay.Proofs.Enumeration.Lookup
import Overlay.Proofs.Text.Casing

/-!
# Addressing constants

A constant of an enumeration is found by its name, by its name in upper case, and answers one
predicate for each constant, named after that one with a capital. Names that differ in case alone
are different names, but they are the same in upper case and may have the same predicate. So who is
found by a name in upper case is the constant that *owns* it (`Constants.OwnsUpperCase`), and a
predicate asks for the last constant that it can be named after (`Constants.IsLastCapitalized`).

* `Enumeration.constants_addressed` : **what finds a constant and what it answers**, as long as the
  type is known and the instances are there;
* `Constants.ownsUpperCase_of_unique`, `Constants.isLastCapitalized_iff_eq` : with names that differ
  in more than case, this is each constant itself.
-/

namespace Overlay

namespace Constants

variable {cs : Constants} {a b : Constant} {h : Heap}

/-! ### Names in upper case -/

/-- A name in upper case stands for the constant: it is its name, or no constant has it for its name
and this is the first that has it in upper case. -/
def OwnsUpperCase (cs : Constants) (a : Constant) : Prop :=
  upperCase a.name = a.name ∨
    (∀ d ∈ cs.all, d.name ≠ upperCase a.name) ∧
      ∀ d ∈ cs.before a, upperCase d.name ≠ upperCase a.name

theorem named?_upperCase_iff (distinct : cs.Distinct) (ha : a ∈ cs.all) :
    cs.named? (upperCase a.name) = some a ↔ cs.OwnsUpperCase a := by
  have key : cs.key (upperCase a.name) = upperCase a.name := by
    unfold Constants.key
    split
    · exact upperCase_upperCase a.name
    · rfl
  rw [named?_iff distinct ha, key, OwnsUpperCase, eq_comm (a := a.name)]
  simp

/-- No other constant has the same name in upper case, so this one owns it. -/
theorem ownsUpperCase_of_unique
    (unique : ∀ d ∈ cs.all, upperCase d.name = upperCase a.name → d = a) : cs.OwnsUpperCase a := by
  by_cases upper : upperCase a.name = a.name
  · exact Or.inl upper
  · refine Or.inr ⟨fun d hd same => ?_, fun d hd same => ?_⟩
    · have sameUpper : upperCase d.name = upperCase a.name := by rw [same, upperCase_upperCase]
      rw [unique d hd sameUpper] at same
      exact upper same.symm
    · have different : d ≠ a := by simpa using List.mem_takeWhile_imp hd
      exact different (unique d ((List.takeWhile_sublist _).mem hd) same)

/-! ### Names with a capital -/

/-- The constants that are declared after a constant, the last one first. -/
def after (cs : Constants) (a : Constant) : List Constant := cs.all.reverse.takeWhile (· ≠ a)

/-- Of the constants that have the name of this one with a capital, the other is the last. -/
def IsLastCapitalized (cs : Constants) (a b : Constant) : Prop :=
  capitalize a.name = capitalize b.name ∧
    ∀ d ∈ cs.after a, capitalize d.name ≠ capitalize b.name

/-- The last constant that has a name with a capital. -/
def lastCapitalized? (cs : Constants) (name : String) : Option Constant :=
  cs.all.reverse.find? (capitalize ·.name == capitalize name)

theorem lastCapitalized?_iff (ha : a ∈ cs.all) :
    cs.lastCapitalized? b.name = some a ↔ cs.IsLastCapitalized a b := by
  rw [lastCapitalized?, find?_eq_some_iff_takeWhile (List.mem_reverse.2 ha)]
  simp [IsLastCapitalized, after]

/-- A constant answers its own predicate, and no other constant does, if no later one has its name
with a capital. -/
theorem isLastCapitalized_iff_eq (ha : a ∈ cs.all) (hb : b ∈ cs.all)
    (last : ∀ d ∈ cs.after b, capitalize d.name ≠ capitalize b.name) :
    cs.IsLastCapitalized a b ↔ a = b := by
  have own : cs.lastCapitalized? b.name = some b := (lastCapitalized?_iff hb).2 ⟨rfl, last⟩
  rw [← lastCapitalized?_iff ha, own, Option.some.injEq, eq_comm]

theorem ofModel?_self (distinct : cs.Distinct) (ha : a ∈ cs.all) (h : Heap) :
    cs.ofModel? h a.model = some a := by
  cases hf : cs.all.find? (·.model == a.model) with
  | none => simpa using List.find?_eq_none.1 hf a ha
  | some b =>
    have same : b = a :=
      distinct.eq_of_model ha (List.mem_of_find?_eq_some hf) (by simpa using List.find?_some hf)
    rw [ofModel?, hf, same]
    rfl

end Constants

namespace Enumeration

/-! ### The methods of a constant -/

section Methods

variable (cs : Constants)

theorem lookup_map {α β : Type} (l : List α) (key : α → String) (value : α → β) (name : String) :
    (l.map fun a => (key a, value a)).lookup name = (l.find? (key · == name)).map value := by
  induction l with
  | nil => rfl
  | cons a l ih =>
    rw [List.map_cons, List.lookup_cons, List.find?_cons, BEq.comm (a := name)]
    cases key a == name
    · exact ih
    · rfl

/-- The last predicate of a name counts, before the other methods. -/
theorem lookup_methods (name : String) :
    (methods cs).reverse.lookup name =
      ((cs.all.reverse.find? fun d => "is" ++ capitalize d.name == name).map fun d =>
        .isConstant cs d.name).or
      ([("clean", .snapshot), ("value", .data), ("toString", .constantName cs),
        ("name", .constantName cs)].lookup name) := by
  rw [methods, List.reverse_append, List.lookup_append, ← List.map_reverse, lookup_map]
  rfl

/-- The name of a predicate begins with another letter than those of the other methods. -/
theorem is_append_ne {name : String} (hn : name ∈ ["clean", "value", "toString", "name"])
    (x : String) : "is" ++ x ≠ name := by
  intro same
  have first := congrArg (·.toList.head?) same
  rw [String.toList_append] at first
  simp only [List.mem_cons, List.not_mem_nil, or_false] at hn
  rcases hn with rfl | rfl | rfl | rfl <;> simp at first

theorem lookup_methods_is (name : String) :
    (methods cs).reverse.lookup ("is" ++ capitalize name) =
      (cs.lastCapitalized? name).map fun d => .isConstant cs d.name := by
  have same : ∀ x y : String, ("is" ++ x == "is" ++ y) = (x == y) := by
    intro x y
    rw [Bool.eq_iff_iff, beq_iff_eq, beq_iff_eq]
    exact String.append_right_inj "is"
  have others : [("clean", Method.snapshot), ("value", .data), ("toString", .constantName cs),
      ("name", .constantName cs)].lookup ("is" ++ capitalize name) = none := by
    rw [List.lookup_eq_none_iff]
    intro e he
    rw [bne_iff_ne]
    exact is_append_ne (List.mem_map_of_mem (f := Prod.fst) he) _
  rw [lookup_methods, others, Option.or_none, Constants.lastCapitalized?]
  simp only [same]

theorem lookup_methods_name {name : String} (hn : name = "name" ∨ name = "toString") :
    (methods cs).reverse.lookup name = some (.constantName cs) := by
  have predicates : (cs.all.reverse.find? fun d => "is" ++ capitalize d.name == name) = none := by
    rw [List.find?_eq_none]
    intro d _
    rw [beq_iff_eq]
    exact is_append_ne (by rcases hn with rfl | rfl <;> decide) _
  rw [lookup_methods, predicates]
  rcases hn with rfl | rfl <;> rfl

end Methods

/-! ### Calling them -/

theorem addInstances_made {t : TypeId} (values : List (String × Value)) (h : Heap) :
    h.Grows (addInstances t values h).2 ∧ ∀ a ∈ (addInstances t values h).1,
      a.model.index < (addInstances t values h).2.models.size ∧
        (addInstances t values h).2.type a.model = t := by
  induction values generalizing h with
  | nil => exact ⟨.refl h, fun a ha => absurd ha List.not_mem_nil⟩
  | cons e values ih =>
    obtain ⟨name, v⟩ := e
    obtain ⟨grows, made⟩ := ih (h.addModel t v).2
    refine ⟨(Heap.extends_addModel h t v).grows.trans grows, fun a ha => ?_⟩
    have new := h.index_addModel_lt t v
    rcases List.mem_cons.1 ha with rfl | ha
    · exact ⟨Nat.lt_of_lt_of_le new grows.models.size_le,
        (grows.type_eq new).trans (h.type_addModel t v)⟩
    · exact made a ha

section Calls

open Engine

variable {spec : Spec} {s s' : Schema} {h h' : Heap} {e : Enumeration} {c : Context} {st : State}
  {a b : Constant} {name : String} {method : Method}

/-- An enumeration is the next type, with its instances and their methods. -/
theorem define_made (made : define spec s h = .ok (e, s', h')) :
    e.constants.upperCased = spec.upperCased ∧
      e.constants.all.map (·.name) = spec.values.map Prod.fst ∧
      (s'.type e.type).methods = methods e.constants ∧
      ∀ a ∈ e.constants.all, a.model.index < h'.models.size ∧ h'.type a.model = e.type := by
  obtain ⟨-, rfl, rfl, rfl⟩ := define_ok made
  refine ⟨rfl, names_addInstances _ _ _, ?_, (addInstances_made _ _).2⟩
  exact congrArg ModelType.methods ((Schema.type_addModel ..).trans (if_pos rfl))

theorem callee?_of_methods {t : TypeId}
    (found : (s.type t).methods.reverse.lookup name = some method) :
    s.callee? t name = some (.method method) := by
  rw [Schema.callee?, Schema.ancestors, Schema.lineageBound, Schema.ancestorsWithin,
    List.findSome?_cons, Schema.ownCallee?, found]
  rfl

theorem call_method {m : ModelId}
    (found : c.schema.callee? (st.heap.type m) name = some (.method method)) :
    ∃ depth, call m name [] c st =
      runMethod (perform depth) m method [] { c with held := .model m :: c.held } st := by
  obtain ⟨depth, hd⟩ := c.schema.budget_eq_succ (Operation.call m name []).weight
  refine ⟨depth, ?_⟩
  rw [call, Operation.run, hd]
  show callMethod (perform depth) m name [] c st = _
  unfold callMethod holding
  simp only [bind_run, heap, schema, found, List.singleton_append]

/-- The instances are different, so finding the constant is finding its instance. -/
theorem named?_eq_some_iff (distinct : e.constants.Distinct) (ha : a ∈ e.constants.all)
    (name : String) : e.named? name = some a.model ↔ e.constants.named? name = some a := by
  rw [named?, Option.map_eq_some_iff]
  constructor
  · rintro ⟨d, hd, same⟩
    have there : d ∈ e.constants.all := by
      rcases Option.or_eq_some_iff.1 hd with exactly | ⟨-, upper⟩
      · exact List.mem_of_find?_eq_some exactly
      · exact List.mem_of_find?_eq_some upper
    rw [hd, distinct.eq_of_model ha there same]
  · exact fun ha => ⟨a, ha, rfl⟩

/-- **What finds a constant, and what it answers.** It is found by its name, and by its name in
upper case if it owns that; where names are put into upper case, it must own it in either case. It
answers its declared name, and a predicate is true of it just if it is the last constant that the
predicate can be named after. A constant owns its name in upper case if no other has the same, and
the predicate is its own if no later constant has the same name with a capital. -/
theorem constants_addressed (made : define spec s h = .ok (e, s', h'))
    (known : c.schema.type e.type = s'.type e.type) (grown : h'.Grows st.heap)
    (ha : a ∈ e.constants.all) (hb : b ∈ e.constants.all) :
    e.constants.all.map (·.name) = spec.values.map Prod.fst ∧
      (e.named? a.name = some a.model ↔ (spec.upperCased = true → e.constants.OwnsUpperCase a)) ∧
      (e.named? (upperCase a.name) = some a.model ↔ e.constants.OwnsUpperCase a) ∧
      call a.model "name" [] c st = (.ok (.string a.name), st) ∧
      call a.model "toString" [] c st = (.ok (.string a.name), st) ∧
      ∃ answer, call a.model ("is" ++ capitalize b.name) [] c st = (.ok (.bool answer), st) ∧
        (answer = true ↔ e.constants.IsLastCapitalized a b) ∧
        ((∀ d ∈ e.constants.all, upperCase d.name = upperCase a.name → d = a) →
          e.constants.OwnsUpperCase a) ∧
        ((∀ d ∈ e.constants.after b, capitalize d.name ≠ capitalize b.name) →
          (e.constants.IsLastCapitalized a b ↔ a = b)) := by
  have distinct := define_distinct made
  obtain ⟨upperCased, names, methods, instances⟩ := define_made made
  have type : st.heap.type a.model = e.type :=
    (grown.type_eq (instances a ha).1).trans (instances a ha).2
  have stands : ∀ {name method},
      (Enumeration.methods e.constants).reverse.lookup name = some method →
      c.schema.callee? (st.heap.type a.model) name = some (.method method) := by
    intro name method found
    rw [type]
    exact callee?_of_methods (by rw [known, methods, found])
  have self := Constants.ofModel?_self distinct ha st.heap
  have answersName : ∀ name, name = "name" ∨ name = "toString" →
      call a.model name [] c st = (.ok (.string a.name), st) := by
    intro name hn
    obtain ⟨depth, run⟩ := call_method (stands (lookup_methods_name e.constants hn))
    rw [run, runMethod, constantName, bind_run]
    dsimp only [heap]
    rw [self]
    rfl
  refine ⟨names, ?_, ?_, answersName _ (Or.inl rfl), answersName _ (Or.inr rfl), ?_⟩
  · rw [named?_eq_some_iff distinct ha, Constants.named?_self_iff distinct ha, upperCased]
    rfl
  · rw [named?_eq_some_iff distinct ha, Constants.named?_upperCase_iff distinct ha]
  · -- `b` itself has its name with a capital, so there is a last one
    obtain ⟨d, hd⟩ : ∃ d, e.constants.lastCapitalized? b.name = some d := by
      rw [← Option.isSome_iff_exists, Constants.lastCapitalized?, List.find?_isSome]
      exact ⟨b, List.mem_reverse.2 hb, beq_self_eq_true _⟩
    have there : d ∈ e.constants.all :=
      List.mem_reverse.1 (List.mem_of_find?_eq_some hd)
    obtain ⟨depth, run⟩ := call_method (stands (by rw [lookup_methods_is, hd]; rfl))
    refine ⟨a.name == d.name, ?_, ?_, Constants.ownsUpperCase_of_unique,
      Constants.isLastCapitalized_iff_eq ha hb⟩
    · rw [run, runMethod, isConstant, bind_run]
      dsimp only [heap]
      rw [self]
      rfl
    · rw [← Constants.lastCapitalized?_iff ha, hd, beq_iff_eq, Option.some.injEq]
      exact ⟨fun same => distinct.eq_of_name ha there same.symm, fun same => by rw [same]⟩

/-! ### Colours -/

/-- The instances of two constants, without other data. -/
def pairOf (first second : String) : Constants := ⟨[⟨first, ⟨0⟩⟩, ⟨second, ⟨1⟩⟩], false⟩

/-- The root and the type of these constants. -/
def schemaOf (cs : Constants) : Schema :=
  (Schema.initial.addModel (.extended .root .root (extension none cs) [])).2

/-- The heap that has instances with these names alone. -/
def heapOf (names : List String) : Heap := (addInstances ⟨1⟩ (Spec.ofNames names).values .empty).2

/-- Red is found in upper case, names itself, and is not green. -/
theorem constants_addressed_colours :
    define (.ofNames ["red", "green"]) .initial .empty =
        .ok (⟨⟨1⟩, pairOf "red" "green"⟩, schemaOf (pairOf "red" "green"),
          heapOf ["red", "green"]) ∧
      Enumeration.named? ⟨⟨1⟩, pairOf "red" "green"⟩ (upperCase "red") = some ⟨0⟩ ∧
      call ⟨0⟩ "name" [] ⟨schemaOf (pairOf "red" "green"), []⟩
          ⟨heapOf ["red", "green"], .throwing, []⟩ =
        (.ok (.string "red"), ⟨heapOf ["red", "green"], .throwing, []⟩) := by
  have made : define (.ofNames ["red", "green"]) .initial .empty =
    .ok (⟨⟨1⟩, pairOf "red" "green"⟩, schemaOf (pairOf "red" "green"),
      heapOf ["red", "green"]) := rfl
  obtain ⟨-, -, upper, named, -⟩ := @constants_addressed _ _ _ _ _ _
    ⟨schemaOf (pairOf "red" "green"), []⟩ ⟨heapOf ["red", "green"], .throwing, []⟩
    ⟨"red", ⟨0⟩⟩ ⟨"green", ⟨1⟩⟩ made rfl (.refl _) (by decide) (by decide)
  exact ⟨made, upper.2 (Constants.ownsUpperCase_of_unique (by decide +kernel)), named⟩

/-- Two names that differ in case: the second is not found in upper case, and the predicate of the
first asks for the second. -/
theorem recased_constants :
    define (.ofNames ["red", "Red"]) .initial .empty =
        .ok (⟨⟨1⟩, pairOf "red" "Red"⟩, schemaOf (pairOf "red" "Red"), heapOf ["red", "Red"]) ∧
      Enumeration.named? ⟨⟨1⟩, pairOf "red" "Red"⟩ (upperCase "Red") = some ⟨0⟩ ∧
      (call ⟨0⟩ ("is" ++ capitalize "red") [] ⟨schemaOf (pairOf "red" "Red"), []⟩
        ⟨heapOf ["red", "Red"], .throwing, []⟩).1 = .ok (.bool false) :=
  ⟨rfl, by decide +kernel, by decide +kernel⟩

end Calls

end Enumeration

end Overlay
