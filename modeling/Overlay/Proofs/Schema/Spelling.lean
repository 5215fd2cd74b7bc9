import Overlay.Schema.Declaration

/-!
# How arrays are written

An array of what a name means can be written with `[]` after the name, with an array around the
name, or in detail, with the elements beside a marker; and what an array holds may be an array
again.  `Declaration.Spells` is every way of writing so many arrays around a name, and
`Declaration.spells_alike` says that **each of them means the same**: the built-in type of that name
or else what the scope knows under it, inside that many arrays. Whatever a declaration means, the
property that is declared with it has elements of those types, named and stored as their owner.

What is written before the brackets must not end in brackets itself, since these count too. Elements
in detail count only beside a type that leaves them open (`Declaration.shape`).
-/

namespace Overlay

namespace Shape

/-- The type, the type of its elements, of their elements, and so on. -/
def chain (shape : Shape) : List DataType := shape.type :: shape.elements

/-- So many arrays around it. -/
def within (shape : Shape) : Nat → Shape
  | 0 => shape
  | depth + 1 => (shape.within depth).array

theorem chain_within (shape : Shape) (depth : Nat) :
    (shape.within depth).chain = List.replicate depth (.builtin .array) ++ shape.chain := by
  induction depth with
  | zero => rfl
  | succ depth ih =>
    rw [List.replicate_succ, List.cons_append, ← ih]
    rfl

end Shape

/-! ### Ways of writing an array -/

/-- A name with so many `[]` after it. -/
def bracketed (name : String) : Nat → String
  | 0 => name
  | depth + 1 => bracketed name depth ++ "[]"

/-- A declaration writes so many arrays around a name: as brackets after the name, as an array
around a declaration of one array less, or as the marker of arrays with that declaration beside
it. -/
inductive Declaration.Spells (name : String) : Nat → Declaration → Prop
  /-- Brackets after the name. -/
  | brackets (depth : Nat) : Spells name depth (.named (bracketed name depth))
  /-- An array around the elements; entries after the first do not count. -/
  | array {depth : Nat} {d : Declaration} (element : Spells name depth d)
      (rest : List Declaration) : Spells name (depth + 1) (.array (d :: rest))
  /-- An array in detail, with any storage key, accessors and persistence. -/
  | detailed {depth : Nat} {d : Declaration} (element : Spells name depth d)
    (storageKey : Option String) (getter setter : Option Hook) (isPersisted : Bool) :
    Spells name (depth + 1)
      (.detailed (some (.marker .array)) (some d) storageKey getter setter isPersisted)

namespace Scope

variable (scope : Scope)

theorem shapeOf_bracketed (name : String) (depth : Nat) :
    scope.shapeOf (bracketed name depth) = (scope.shapeOf name).map (·.within depth) := by
  induction depth with
  | zero => cases h : scope.shapeOf name <;> simp [bracketed, Shape.within, h, Except.map]
  | succ depth ih =>
    rw [bracketed, shapeOf_brackets, ih]
    cases scope.shapeOf name <;> rfl

/-- A name that does not end in brackets means what the built-in types or the scope say. -/
theorem shapeOf_plain {name : String} (bare : ∀ front, name ≠ front ++ "[]") :
    scope.shapeOf name = scope.plainShapeOf name := by
  rw [shapeOf]
  generalize hr : name.toList.reverse = reversed
  have spelled : name = String.ofList reversed.reverse := by
    rw [← hr, List.reverse_reverse, String.ofList_toList]
  unfold shapeOfReversed
  split
  · rename_i rest
    refine absurd ?_ (bare (String.ofList rest.reverse))
    rw [spelled, List.reverse_cons, List.reverse_cons, List.append_assoc, String.ofList_append]
    rfl
  · rw [← spelled]

end Scope

namespace Declaration

variable {name : String} {depth : Nat} {d : Declaration}

/-- However the arrays are written, they are what the name means inside that many arrays. -/
theorem Spells.shape_eq (spells : Spells name depth d) (scope : Scope) :
    d.shape scope = (scope.shapeOf name).map (·.within depth) := by
  induction spells with
  | brackets depth =>
    rw [Declaration.shape]
    exact scope.shapeOf_bracketed name depth
  | array element rest ih =>
    rw [Declaration.shape, ih]
    cases scope.shapeOf name <;> rfl
  | detailed element storageKey getter setter isPersisted ih =>
    rw [Declaration.shape, Declaration.shape, ih]
    cases scope.shapeOf name <;> rfl

/-- The storage key in a declaration in detail. -/
def storageKey? : Declaration → Option String
  | .detailed _ _ storageKey _ _ _ => storageKey
  | _ => none

end Declaration

/-! ### The elements of a declared property -/

namespace Property

/-- The description of the elements so many levels inside. -/
def elementAt? : Nat → Property → Option Property
  | 0, p => some p
  | depth + 1, p => p.elementProperty?.bind (elementAt? depth)

/-- A description of elements that goes with its owner: of the same name and storage key,
persisted, and without accessors. -/
structure IsElementOf (q p : Property) : Prop where
  /-- It has the name of its owner. -/
  name : q.name = p.name
  /-- It has the storage key of its owner. -/
  storageKey : q.storageKey = p.storageKey
  /-- It is persisted. -/
  isPersisted : q.isPersisted = true
  /-- Nothing runs in place of reading. -/
  getter : q.getter = none
  /-- Nothing runs in place of writing. -/
  setter : q.setter = none

theorem isElementOf_of_elementProperty? {p q : Property} (h : p.elementProperty? = some q) :
    q.IsElementOf p := by
  unfold elementProperty? at h
  split at h <;> cases h
  exact ⟨rfl, rfl, rfl, rfl, rfl⟩

theorem isElementOf_of_elementAt? {p q : Property} {depth : Nat}
    (h : p.elementAt? (depth + 1) = some q) : q.IsElementOf p := by
  induction depth generalizing p with
  | zero =>
    obtain ⟨e, he, hq⟩ := Option.bind_eq_some_iff.1 h
    cases hq
    exact isElementOf_of_elementProperty? he
  | succ depth ih =>
    obtain ⟨e, he, hq⟩ := Option.bind_eq_some_iff.1 h
    have owner := isElementOf_of_elementProperty? he
    have inner := ih hq
    exact { inner with
      name := inner.name.trans owner.name
      storageKey := inner.storageKey.trans owner.storageKey }

theorem type_elementAt? (p : Property) (depth : Nat) :
    (p.elementAt? depth).map (·.type) = (p.type :: p.elements)[depth]? := by
  induction depth generalizing p with
  | zero => rfl
  | succ depth ih =>
    rw [elementAt?, List.getElem?_cons_succ, elementProperty?]
    cases p.elements with
    | nil => rfl
    | cons type rest => exact ih _

end Property

/-- A property has the type of its declaration and the elements that this declares. -/
theorem Property.declare_of_shape {scope : Scope} {d : Declaration} {shape : Shape} (name : String)
    (h : d.shape scope = .ok shape) : ∃ p, Property.declare scope name d = .ok p ∧ p.name = name ∧
      p.storageKey = d.storageKey?.getD name ∧ p.type :: p.elements = shape.chain := by
  unfold Property.declare
  rw [h]
  cases d <;> exact ⟨_, rfl, rfl, rfl, rfl⟩

namespace Declaration

variable {name : String} {depth : Nat} {d : Declaration}

/-- **Every way of writing so many arrays around a name means the same**: that many arrays around
the built-in type of the name, whatever the scope, or else around the type that the scope knows
under the name; a name that neither knows is reported. What is declared with a declaration has the
type that this means, and its elements, level by level, have the types that this means and go with
the property. -/
theorem spells_alike (bare : ∀ front, name ≠ front ++ "[]") (spells : Spells name depth d)
    (scope : Scope) (e : Declaration) (owner : String) :
    ((∀ b, Builtin.ofName? name = some b → ∃ shape, d.shape scope = .ok shape ∧
        shape.chain = List.replicate depth (.builtin .array) ++ [.builtin b]) ∧
      (Builtin.ofName? name = none → ∀ t, scope name = some t → ∃ shape, d.shape scope = .ok shape ∧
        shape.chain = List.replicate depth (.builtin .array) ++ [t]) ∧
      (Builtin.ofName? name = none → scope name = none →
        d.shape scope = .error (.unknownType name))) ∧
    match e.shape scope with
    | .error x => Property.declare scope owner e = .error x
    | .ok shape => ∃ p, Property.declare scope owner e = .ok p ∧
        p.name = owner ∧ p.storageKey = e.storageKey?.getD owner ∧
        (∀ i, (p.elementAt? i).map (·.type) = shape.chain[i]?) ∧
        ∀ i q, p.elementAt? (i + 1) = some q → q.IsElementOf p := by
  have meaning : d.shape scope = (scope.plainShapeOf name).map (·.within depth) := by
    rw [spells.shape_eq, scope.shapeOf_plain bare]
  refine ⟨⟨?builtin, ?known, ?unknown⟩, ?declared⟩
  case builtin =>
    intro b hb
    rw [meaning, Scope.plainShapeOf, hb]
    exact ⟨_, rfl, Shape.chain_within _ depth⟩
  case known =>
    intro none t ht
    rw [meaning, Scope.plainShapeOf, none, ht]
    exact ⟨_, rfl, Shape.chain_within _ depth⟩
  case unknown =>
    intro none unknown
    rw [meaning, Scope.plainShapeOf, none, unknown]
    rfl
  case declared =>
    split
    · rename_i x h
      unfold Property.declare
      rw [h]
      rfl
    · rename_i shape h
      obtain ⟨p, declared, named, stored, chain⟩ := Property.declare_of_shape owner h
      refine ⟨p, declared, named, stored, fun i => ?_,
        fun i q => Property.isElementOf_of_elementAt?⟩
      rw [Property.type_elementAt?, chain]

/-- A scope that knows the type of notes. -/
def noteScope : Scope := fun name => if name = "Note" then some (.model ⟨1⟩) else none

/-- The lists of lists of notes, the outer ones written as an array and the inner ones in detail. -/
theorem spells_alike_notes : Builtin.ofName? "Note" = none ∧
    ∃ shape, (Declaration.array [.detailed (some (.marker .array)) (some (.named "Note"))
      (some "n") none none false]).shape noteScope = .ok shape ∧
        shape.chain = [.builtin .array, .builtin .array, .model ⟨1⟩] := by
  have bare : ∀ front, "Note" ≠ front ++ "[]" := by
    intro front h
    have last := congrArg (·.toList.getLast?) h
    rw [String.toList_append] at last
    simp at last
  have spelled := spells_alike bare (.array (.detailed (.brackets 0) (some "n") none none false) [])
    noteScope (.named "Note[][]") "notes"
  have builtin : Builtin.ofName? "Note" = none := by decide
  exact ⟨builtin, spelled.1.2.1 builtin (.model ⟨1⟩) rfl⟩

end Declaration

end Overlay
