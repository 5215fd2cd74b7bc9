import Overlay.Proofs.Engine.Acts
import Overlay.Proofs.Engine.Constants
import Overlay.Proofs.Enumeration.Lookup

/-!
# Constants in fields

A constant that is written to a property of its type is kept as its raw value, and reading looks
that value up again.  So it is the same constant again just if its raw value tells it from the
others.

* `Engine.modelOf_data_iff` : when the raw value of a constant is wrapped by the constant;
* `Engine.tells_of_get_after_set` : so it does if it was written and is read again;
* `Engine.set_get_constant` : **writing a constant, its raw value or its name, and reading it**;
* `Engine.crossed_constants` : two constants, each with the name of the other for its raw value, are
  mistaken for one another.
-/

namespace Overlay.Engine

variable {c : Context} {st : State} {t : TypeId} {cs : Constants} {p : Property} {m : ModelId}
  {a : Constant} {name : String}

/-! ### Raw values -/

theorem modelOf_iff {v : Value} {x : ModelId} :
    modelOf t v c st = (.ok x, st) ↔
      ∃ st', wrap (.model t) v c { st with options := .throwing } = (.ok (.model x), st') ∧
        { st' with options := st.options } = st := by
  unfold modelOf apart
  dsimp only
  rw [bind_run]
  rcases wrap (.model t) v c { st with options := .throwing } with ⟨fault | w, st'⟩
  · simp
  · cases w with
    | model y => simp [pure_run]
    | _ => simp [bind_run, heap, raise]

/-- The model that wraps the raw value of a constant is the constant just if the value tells it from
the others. -/
theorem modelOf_data_iff (e : c.schema.Enumerates t cs) (distinct : cs.Distinct) (ha : a ∈ cs.all)
    (plain : (st.heap.data a.model).isModel = false) :
    modelOf t (st.heap.data a.model) c st = (.ok a.model, st) ↔ cs.Tells st.heap a := by
  have wrapped := fun st' => @wrapConstant_model_iff c { st with options := .throwing } st' t cs
    (st.heap.data a.model) plain a.model
  rw [modelOf_iff, Constants.tells_iff (s := c.schema) (t := t) ha plain]
  constructor
  · rintro ⟨st', run, -⟩
    obtain ⟨-, something, b, hb, same⟩ := (wrapped st').1 ((wrap_constant e _).symm.trans run)
    obtain rfl := distinct.eq_of_model ha (cs.mem_of_denoted? hb) same
    exact ⟨something, hb⟩
  · rintro ⟨something, denoted⟩
    exact ⟨_, (wrap_constant e _).trans ((wrapped _).2 ⟨rfl, something, a, denoted, rfl⟩), rfl⟩

/-! ### Writing and reading -/

/-- A constant, its raw value and its name are kept as the raw value, if that tells the constant
from the others. -/
theorem stored?_constant {s : Schema} {h : Heap} (told : cs.Tells h a) (ha : a ∈ cs.all)
    (type : h.type a.model = t) {v : Value}
    (hv : v = .model a.model ∨ v = h.data a.model ∨
      v = .string a.name ∧ cs.named? a.name = some a) :
    cs.stored? s h t v = some (h.data a.model) := by
  obtain ⟨something, denoted⟩ := (cs.tells_iff (s := s) (t := t) ha told.plain).1 told
  have checked : cs.checked? s h t (h.data a.model) = some (h.data a.model) := by
    rw [Constants.checked?, something, if_neg Bool.false_ne_true, denoted, Option.map_some,
      Heap.unwrap_of_plain told.plain]
  have form : cs.rawForm? s h t v = some (h.data a.model) := by
    rcases hv with rfl | rfl | ⟨rfl, named⟩
    · rw [Constants.rawForm?, type, if_pos (s.derivesFrom_self t)]
    · rw [cs.rawForm?_of_plain _ _ _ told.plain, something, if_neg Bool.false_ne_true, denoted,
        Option.map_some]
    · rw [cs.rawForm?_of_plain _ _ _ rfl, Constants.denoted?, named]
      rfl
  rw [Constants.stored?, form, Option.bind_some, checked]

theorem holds_record? {h : Heap} {r : RecordId} (closed : h.Closed)
    (record : h.record? m = some r) : h.Holds (.record r) := by
  have data := h.data_of_record? record
  have there : h.Holds (.model m) := by
    by_contra missing
    have nothing : h.data m = .undefined := by
      rw [Heap.data, Array.getElem?_eq_none (Nat.le_of_not_lt missing)]
    cases nothing.symm.trans data
  exact closed _ there _ (data ▸ List.mem_cons_self)

/-- A constant that is written and then read has a raw value that tells it from the others. -/
theorem tells_of_get_after_set {st' : State} {r : RecordId} (lives : Lives c.schema st.heap)
    (enum : (c.schema.type t).wrap = .custom (.constants cs))
    (declared : (c.schema.type (st.heap.type m)).property? name = some p)
    (typed : p.type = .model t) (record : st.heap.record? m = some r) (ha : a ∈ cs.all)
    (plain : (st.heap.data a.model).isModel = false)
    (write : set m name (.model a.model) c st = (.ok (), st'))
    (read : get m name c st' = (.ok (.model a.model), st')) : cs.Tells st'.heap a := by
  have e := lives.built.enumerates enum
  have accessors := lives.built.plainBelow_size declared
  have type := ((lives.inOrder.furnished t cs enum).2 a ha).2
  obtain ⟨d, hd⟩ := setProperty_run m p (.model a.model) c st
  obtain ⟨w, stored, form⟩ := writeProperty_ok e typed accessors.setter (hd.symm.trans
    ((set_declared declared _).symm.trans write))
  rw [withField, record, Option.elim_some] at stored
  have field : fieldOf st'.heap m p = w := by
    rw [stored]
    exact fieldOf_insert (holds_record? lives.inOrder.closed record) record w
  -- what is written is the raw value of the constant, or nothing
  have raw : w = .undefined ∨ w = st.heap.data a.model := by
    refine form.imp_right fun form => ?_
    rw [Constants.stored?, Constants.rawForm?, type, if_pos (c.schema.derivesFrom_self t),
      Option.bind_some, Constants.checked?] at form
    split at form
    · exact (Option.some.inj form).symm
    · obtain ⟨_, -, rfl⟩ := Option.map_eq_some_iff.1 form
      exact Heap.unwrap_of_plain plain
  have plain' : (fieldOf st'.heap m p).isModel = false := by
    rw [field]
    rcases raw with rfl | rfl
    · rfl
    · exact plain
  have same : st'.heap.type m = st.heap.type m := by rw [stored]; rfl
  rw [← same] at declared
  rw [get_declared declared] at read
  obtain ⟨d', hd'⟩ := getProperty_run m p c st'
  obtain ⟨something, b, denoted, model⟩ :=
    (readProperty_model_iff e (lives.built.readsRaw_eq_false enum) typed accessors.getter plain'
      d').1 (hd'.symm.trans read)
  obtain rfl := (lives.built.distinct enum).eq_of_model ha (cs.mem_of_denoted? denoted) model
  rw [field] at something denoted
  obtain rfl : w = st'.heap.data b.model := by
    rcases raw with rfl | rfl
    · cases something
    · rw [stored]
      rfl
  rw [field] at plain'
  exact (Constants.tells_iff ha plain').2 ⟨something, denoted⟩

/-- **A constant survives storage just if its raw value tells it from the others.**  Take any heap
and types that a program without hooks may have, an enumeration, and a property of its type on a
model with a record.

Let the raw value tell a constant from the others, when it is written and afterwards.  Then writing
the constant, its raw value, or its name if this names it, succeeds and keeps the raw value; reading
gives the constant; coercing what is kept changes nothing; and wrapping the raw value gives the
constant.

Conversely, if the raw value is no model, wrapping it gives the constant only if it tells it from
the others, and so does reading the constant after writing it.

A constant's own name names it unless putting it into upper case leads elsewhere.  And what told a
constant from the others before it was written still does afterwards, unless the record is part of
its raw value and so comes to contain itself. -/
theorem set_get_constant {r : RecordId} (lives : Lives c.schema st.heap)
    (enum : (c.schema.type t).wrap = .custom (.constants cs))
    (declared : (c.schema.type (st.heap.type m)).property? name = some p)
    (typed : p.type = .model t) (record : st.heap.record? m = some r) (ha : a ∈ cs.all) :
    let raw := st.heap.data a.model
    let kept : State := { st with heap := st.heap.insert r p.storageKey raw }
    (cs.Tells st.heap a → cs.Tells kept.heap a →
      (∀ v, (v = .model a.model ∨ v = raw ∨ v = .string a.name ∧ cs.named? a.name = some a) →
        set m name v c st = (.ok (), kept)) ∧
      get m name c kept = (.ok (.model a.model), kept) ∧
      coerce (.model t) raw c kept = (.ok raw, kept) ∧
      modelOf t raw c st = (.ok a.model, st)) ∧
    (raw.isModel = false →
      (modelOf t raw c st = (.ok a.model, st) → cs.Tells st.heap a) ∧
      ∀ st', set m name (.model a.model) c st = (.ok (), st') →
        get m name c st' = (.ok (.model a.model), st') → cs.Tells st'.heap a) ∧
    (cs.named? a.name = some a ↔
      (cs.upperCased = true → upperCase a.name = a.name ∨
        (∀ d ∈ cs.all, d.name ≠ upperCase a.name) ∧
          ∀ d ∈ cs.before a, upperCase d.name ≠ upperCase a.name)) ∧
    (cs.Tells st.heap a → st.heap.Avoids r raw → st.heap.Acyclic raw → cs.Tells kept.heap a) := by
  intro raw kept
  have e := lives.built.enumerates enum
  have distinct := lives.built.distinct enum
  have accessors := lives.built.plainBelow_size declared
  have type := ((lives.inOrder.furnished t cs enum).2 a ha).2
  refine ⟨fun told again => ⟨fun v hv => ?_, ?_, ?_, ?_⟩, fun plain => ⟨?_, fun st' => ?_⟩,
    Constants.named?_self_iff distinct ha, fun told avoids acyclic => ?_⟩
  · obtain ⟨d, hd⟩ := setProperty_run m p v c st
    rw [set_declared declared, hd, writeProperty_stores e typed accessors.setter d
      (stored?_constant told ha type hv), withField, record]
    rfl
  · obtain ⟨d, hd⟩ := getProperty_run m p c kept
    have field : fieldOf kept.heap m p = raw :=
      fieldOf_insert (holds_record? lives.inOrder.closed record) record raw
    obtain ⟨something, denoted⟩ :=
      (cs.tells_iff (s := c.schema) (t := t) ha again.plain).1 again
    have found : get m name c kept = getProperty m p c kept := get_declared declared
    rw [found, hd, readProperty_model_iff e (lives.built.readsRaw_eq_false enum) typed
      accessors.getter (field ▸ told.plain), field]
    exact ⟨something, a, denoted, rfl⟩
  · obtain ⟨something, denoted⟩ :=
      (cs.tells_iff (s := c.schema) (t := t) ha again.plain).1 again
    have something : raw.isNothing = false := something
    have denoted : cs.denoted? c.schema kept.heap t raw = some a := denoted
    rw [coerce_constant e, coerceConstant, denote_run, something, if_neg Bool.false_ne_true, denoted]
    rfl
  · exact (modelOf_data_iff e distinct ha told.plain).2 told
  · exact (modelOf_data_iff e distinct ha plain).1
  · exact tells_of_get_after_set lives enum declared typed record ha plain
  · have closed := lives.inOrder.closed
    have there : st.heap.Holds raw :=
      closed _ ((lives.inOrder.furnished t cs enum).2 a ha).1 _ List.mem_cons_self
    exact told.insert (holds_record? closed record) avoids
      (Heap.nested_of_acyclic closed acyclic there)

/-! ### Grades -/

/-- What declares grades: two have the name of the other for their raw value. -/
def grades : Enumeration.Spec :=
  ⟨some "Grade", [("low", .string "high"), ("high", .string "low"), ("top", .string "top")], false⟩

/-- The constants. -/
def gradeConstants : Constants := ⟨[⟨"low", ⟨0⟩⟩, ⟨"high", ⟨1⟩⟩, ⟨"top", ⟨2⟩⟩], false⟩

/-- What declares an exam: it has a grade. -/
def exams : Extension :=
  { Extension.empty with
    name := some "Exam", properties := [("grade", .type (.model ⟨1⟩))] }

/-- The grade of an exam. -/
def examGrade : Property := ⟨"grade", "grade", .model ⟨1⟩, [], none, none, true⟩

/-- The root, grades and exams. -/
def examSchema : Schema :=
  let s := (Schema.initial.addModel
    (.extended .root .root (Enumeration.extension (some "Grade") gradeConstants) [])).2
  (s.addModel (.extended .root .root exams [examGrade])).2

/-- The constants are in use, and an exam. -/
def examInUse : Context := ⟨examSchema, [.model ⟨0⟩, .model ⟨1⟩, .model ⟨2⟩, .model ⟨3⟩]⟩

/-- An exam, made after the grades. -/
def exam : Except Fault Value × State :=
  (Act.ask (.create ⟨2⟩ none)).run ⟨examSchema, [.model ⟨0⟩, .model ⟨1⟩, .model ⟨2⟩]⟩
    ⟨(Enumeration.addInstances ⟨1⟩ grades.values .empty).2, .throwing, []⟩

theorem exam_lives : Lives examSchema exam.2.heap := by
  have there : ∀ e ∈ grades.values, Heap.empty.Holds e.2 := by decide
  have made : Lives examSchema (Enumeration.addInstances ⟨1⟩ grades.values .empty).2 :=
    (Lives.start.enumerate (e := ⟨⟨1⟩, gradeConstants⟩) there rfl).extend
      .root exams (by decide) ⟨rfl, nofun, rfl, rfl⟩ rfl (by decide)
  exact made.does (.ask (.create ⟨2⟩ none)) (by decide +kernel) rfl

/-- The top grade is read again after it was written. -/
theorem set_get_constant_top :
    ∃ kept, set ⟨3⟩ "grade" (.string "top") examInUse exam.2 = (.ok (), kept) ∧
      get ⟨3⟩ "grade" examInUse kept = (.ok (.model ⟨2⟩), kept) := by
  obtain ⟨survives, -⟩ := @set_get_constant examInUse exam.2 ⟨1⟩ gradeConstants examGrade ⟨3⟩
    ⟨"top", ⟨2⟩⟩ "grade" ⟨0⟩ exam_lives rfl (by decide +kernel) rfl (by decide +kernel) (by decide)
  have told : ∀ h : Heap, h.data ⟨2⟩ = .string "top" → gradeConstants.Tells h ⟨"top", ⟨2⟩⟩ := by
    intro h raw
    refine (Constants.tells_iff (s := examSchema) (t := ⟨1⟩) (by decide) (raw ▸ rfl)).2 ?_
    rw [raw]
    exact ⟨rfl, rfl⟩
  obtain ⟨written, read, -⟩ := survives (told _ (by decide +kernel)) (told _ (by decide +kernel))
  exact ⟨_, written (.string "top") (Or.inr (Or.inl (by decide +kernel))), read⟩

/-- What stands for none of the grades is not written. -/
example : (set ⟨3⟩ "grade" (.string "middle") examInUse exam.2).1 =
    .error (.error (.invalidValue (some "grade") "middle")) := by
  decide +kernel

/-- A low grade that is written is read as a high one. -/
theorem crossed_constants :
    Lives examSchema exam.2.heap ∧
      (set ⟨3⟩ "grade" (.model ⟨0⟩) examInUse exam.2).1 = .ok () ∧
      (get ⟨3⟩ "grade" examInUse (set ⟨3⟩ "grade" (.model ⟨0⟩) examInUse exam.2).2).1 =
        .ok (.model ⟨1⟩) :=
  ⟨exam_lives, by decide +kernel, by decide +kernel⟩

end Overlay.Engine
