import Overlay.Proofs.Engine.Acts
import Overlay.Proofs.Engine.Constants

/-!
# What is stored under an enumeration

Two ways lead into a field of an enumeration: other values are coerced to the raw value of the
constant that they denote, but an instance gives its own data, if these denote one.
`Engine.audited` does what `Engine.perform` does, and looks at everything that is stored in a field
or an array on the way, by whatever operation of a run.  It stops as soon as something is stored
under an enumeration that is neither the raw value of a constant nor the name that an instance was
made of.

* `Constants.allows_of_stored?` : what is stored of a value is the raw value of a constant;
* `Engine.audit_settled` : so each look finds it in order, whatever the schema and the hooks;
* `Engine.audit_eq_run` : **no run is stopped**;
* `Engine.ink_not_raw` : what was stored may still be changed by the same run, and an instance may
  be made of a name.
-/

namespace Overlay

namespace Constants

variable (cs : Constants) (s : Schema) (h : Heap) (t : TypeId)

/-- The value is an instance made of no more than the name of a constant. -/
def spells : Value → Bool
  | .model m =>
    s.derivesFrom (h.type m) t &&
      match h.data m with
      | .string name => (cs.named? name).isSome
      | _ => false
  | _ => false

/-- Of a value this may be stored: nothing, or the raw value of a constant.  Of a model it may also
be something that equals such a value, and so it may where raw values are models.  Of an instance
that is made of a name, it may be the name. -/
def allows (v x : Value) : Bool :=
  x.isNothing || (cs.spells s h t v && x == h.unwrap v) ||
    cs.all.any fun a => x == h.data a.model ||
      (v.isModel || cs.all.any fun b => (h.data b.model).isModel) && h.equal (h.data a.model) x

end Constants

namespace Schema

variable (s : Schema)

/-- The constants of an enumeration. -/
def constants? (t : TypeId) : Option Constants :=
  match (s.type t).wrap, (s.type t).coerce with
  | .custom (.constants cs), some (.constants cs') => if cs = cs' then some cs else none
  | _, _ => none

/-- What may be stored of a value for a property.  Anything may, unless it is declared with an
enumeration. -/
def allows (h : Heap) (p : Property) (v x : Value) : Bool :=
  match p.type with
  | .model t => (s.constants? t).all fun cs => cs.allows s h t v x
  | _ => true

variable {s} {t : TypeId} {cs : Constants}

theorem constants?_eq_some : s.constants? t = some cs ↔ s.Enumerates t cs := by
  unfold constants?
  split
  · rename_i cs₁ cs₂ hw hc
    constructor
    · intro h
      split at h
      · rename_i e
        cases h
        exact ⟨hw, e ▸ hc⟩
      · cases h
    · rintro ⟨hw', hc'⟩
      rw [hw] at hw'
      rw [hc] at hc'
      cases hw'
      cases hc'
      exact if_pos rfl
  · rename_i other
    refine ⟨nofun, fun e => (other _ _ e.wrap e.coerce).elim⟩

end Schema

namespace Engine

variable {α : Type}

/-! ### Looking at what is stored -/

/-- Stops unless this may be stored of the value. -/
def audit (p : Property) (v x : Value) : Engine Unit := do
  let s ← schema
  let h ← heap
  if s.allows h p v x then return () else exhausted

/-- The stored form of a value, once it was looked at. -/
def auditedForm (perform : Perform) (p : Property) (v : Value) : Engine Value := do
  let x ← stored perform p v
  audit p v x
  return x

/-- Writes a property as `Engine.writeProperty` does, and looks at what goes into the record. -/
def auditedWrite (perform : Perform) (m : ModelId) (p : Property) (v : Value) : Engine Unit :=
  holding [.model m] do
    let x ← concerning p (adapt perform p v)
    match p.setter with
    | some hook =>
      let _ ← runHook perform (.accessor m p) hook x
    | none =>
      let x ← concerning p (settle perform p x)
      audit p v x
      match (← heap).record? m with
      | some r => changeHeap (·.insert r p.storageKey x)
      | none => return ()

/-- What an operation does.  The two that store something look at it first: a property is written,
and the elements of an array are coerced. -/
def auditedBody (perform : Perform) : Operation α → Engine α
  | .set m p v => auditedWrite perform m p v
  | .coerce (.builtin b) v => coerceBuiltin (auditedForm perform) b v
  | .wrap (.builtin b) v => coerceBuiltin (auditedForm perform) b v
  | op => op.body perform

/-- Does an operation that nests others at most this deep, and looks at all that they store. -/
def audited : Nat → Perform
  | 0, _, _ => exhausted
  | depth + 1, _, op => auditedBody (audited depth) op

end Engine

/-- Does an operation, and looks at all that it stores. -/
def Operation.audit {α : Type} (op : Operation α) : Engine α := fun c s =>
  Engine.audited (c.schema.budget op.weight) op c s

/-! ### What is stored -/

namespace Constants

variable {cs : Constants} {s : Schema} {h : Heap} {t : TypeId} {v x : Value}

/-- What denotes a constant is, once it is taken apart, the raw value of one or equal to it, or else
it is a name. -/
theorem like_of_denoted? {d : Constant} (denoted : cs.denoted? s h t v = some d) :
    (∃ a ∈ cs.all, h.unwrap v = h.data a.model ∨ h.equal (h.data a.model) (h.unwrap v) = true) ∨
      ∃ name, v = .string name ∧ (cs.named? name).isSome = true := by
  have valued : ∀ {v : Value}, cs.valued? h v = some d →
      ∃ a ∈ cs.all, v = h.data a.model ∨ h.equal (h.data a.model) v = true := fun {v} found =>
    have equal : h.equal (h.data d.model) v = true := by
      simpa using List.find?_some found
    ⟨d, List.mem_of_find?_eq_some found, Or.inr equal⟩
  cases v with
  | model m =>
    rw [denoted?] at denoted
    split at denoted
    · rcases Option.or_eq_some_iff.1 denoted with found | ⟨-, found⟩
      · obtain rfl : d.model = m := by simpa using List.find?_some found
        exact Or.inl ⟨d, List.mem_of_find?_eq_some found, Or.inl rfl⟩
      · exact Or.inl (valued found)
    · cases denoted
  | string name =>
    rcases Option.or_eq_some_iff.1 denoted with found | ⟨-, found⟩
    · exact Or.inr ⟨name, rfl, Option.isSome_of_eq_some found⟩
    · exact Or.inl (valued found)
  | _ => exact Or.inl (valued denoted)

theorem allows_data {a : Constant} (ha : a ∈ cs.all) :
    cs.allows s h t v (h.data a.model) = true := by
  have found : (cs.all.any fun b => h.data a.model == h.data b.model ||
      (v.isModel || cs.all.any fun b => (h.data b.model).isModel) &&
        h.equal (h.data b.model) (h.data a.model)) = true :=
    List.any_eq_true.2 ⟨a, ha, by rw [beq_self_eq_true, Bool.true_or]⟩
  rw [allows, found, Bool.or_true]

theorem allows_like (model : v.isModel = true ∨ ∃ b ∈ cs.all, (h.data b.model).isModel = true)
    (like : ∃ a ∈ cs.all, x = h.data a.model ∨ h.equal (h.data a.model) x = true) :
    cs.allows s h t v x = true := by
  have loose : (v.isModel || cs.all.any fun b => (h.data b.model).isModel) = true := by
    rw [Bool.or_eq_true, List.any_eq_true]
    exact model
  obtain ⟨a, ha, like⟩ := like
  have found : (cs.all.any fun a => x == h.data a.model || h.equal (h.data a.model) x) = true :=
    List.any_eq_true.2 ⟨a, ha, by simpa using like⟩
  simp only [allows, loose, Bool.true_and, found, Bool.or_true]

/-- What is stored of a value is nothing or the raw value of a constant. -/
theorem allows_of_stored? (stored : cs.stored? s h t v = some x) :
    cs.allows s h t v x = true := by
  obtain ⟨w, form, checked⟩ := Option.bind_eq_some_iff.1 stored
  rw [checked?] at checked
  split at checked
  · rename_i nothing
    cases checked
    rw [allows, nothing, Bool.true_or, Bool.true_or]
  · rename_i something
    obtain ⟨d, denoted, rfl⟩ := Option.map_eq_some_iff.1 checked
    have like := like_of_denoted? denoted
    cases plain : v.isModel with
    | true =>
      -- the data of an instance, whatever they are
      cases v with
      | model m =>
        rw [rawForm?] at form
        split at form
        · rename_i instanced
          cases form
          rcases like with like | ⟨name, data, named⟩
          · exact allows_like (Or.inl rfl) like
          · have made : cs.spells s h t (.model m) = true := by
              simp [spells, instanced, data, named]
            have same : h.unwrap (h.data m) = h.unwrap (.model m) := by
              show h.unwrap (h.data m) = h.data m
              rw [data]
              rfl
            rw [allows, made, same, beq_self_eq_true, Bool.and_self, Bool.or_true, Bool.true_or]
        · cases form
      | _ => cases plain
    | false =>
      -- the raw value of the constant that is denoted
      rw [cs.rawForm?_of_plain _ _ _ plain] at form
      split at form
      · rename_i nothing
        cases form
        exact absurd nothing something
      · obtain ⟨d', denoted', rfl⟩ := Option.map_eq_some_iff.1 form
        have mem := cs.mem_of_denoted? denoted'
        cases raw : (h.data d'.model).isModel with
        | false =>
          rw [Heap.unwrap_of_plain raw]
          exact allows_data mem
        | true =>
          refine allows_like (Or.inr ⟨d', mem, raw⟩) (like.resolve_right ?_)
          rintro ⟨name, data, -⟩
          rw [data] at raw
          cases raw

end Constants

namespace Engine

variable {c : Context} {st st' : State} {p : Property} {v x : Value}

theorem audit_run (p : Property) (v x : Value) (c : Context) (st : State) :
    audit p v x c st =
      if c.schema.allows st.heap p v x then (.ok (), st) else (.error .exhausted, st) := by
  unfold audit
  simp only [bind_run, schema, heap]
  split <;> rfl

theorem settle_zero {t : TypeId} {cs : Constants} (e : c.schema.Enumerates t cs)
    (hp : p.type = .model t) (settled : settle (Engine.perform 0) p v c st = (.ok x, st')) :
    x.isNothing = true := by
  have wraps : c.schema.wraps p.type = true := by
    rw [hp, Schema.wraps, ModelType.wraps, e.wrap]
    rfl
  unfold settle at settled
  rw [bind_run] at settled
  dsimp only [schema] at settled
  rw [wraps, Bool.not_true, Bool.or_false] at settled
  split at settled
  · rename_i nothing
    cases settled
    exact nothing
  · cases settled

/-- What is stored in a field or an array is found in order. -/
theorem audit_settled {d : Nat} {w : Value} {st₁ st₂ : State}
    (adapted : adapt (Engine.perform d) p v c st = (.ok x, st₁))
    (settled : settle (Engine.perform d) p x c st₂ = (.ok w, st'))
    (same : st₂.heap = st₁.heap) : c.schema.allows st'.heap p v w = true := by
  unfold Schema.allows
  split
  · rename_i t hp
    rw [Option.all_eq_true]
    intro cs hcs
    have e := Schema.constants?_eq_some.1 hcs
    cases d with
    | zero => rw [Constants.allows, settle_zero e hp settled, Bool.true_or, Bool.true_or]
    | succ d =>
      obtain ⟨heap, rfl | stored⟩ := settled_ok e hp adapted settled same
      · rfl
      · rw [heap]
        exact Constants.allows_of_stored? stored
  · rfl

theorem auditedForm_eq (d : Nat) : auditedForm (Engine.perform d) = stored (Engine.perform d) := by
  funext p v c st
  unfold auditedForm
  rw [bind_run]
  rcases run : stored (Engine.perform d) p v c st with ⟨fault | x, st'⟩
  · rfl
  · have inOrder : c.schema.allows st'.heap p v x = true := by
      obtain ⟨st₂, run, heap⟩ := concerning_ok run
      obtain ⟨w, st₁, adapted, settled⟩ := bind_ok run
      rw [heap]
      exact audit_settled adapted settled rfl
    have passed : audit p v x c st' = (.ok (), st') := by rw [audit_run, if_pos inOrder]
    exact bind_of_ok passed

theorem auditedWrite_eq (d : Nat) :
    auditedWrite (Engine.perform d) = writeProperty (Engine.perform d) := by
  funext m p v c st
  unfold auditedWrite writeProperty holding
  rw [bind_run, bind_run]
  rcases run₁ : concerning p (adapt (Engine.perform d) p v)
    { c with held := [.model m] ++ c.held } st with ⟨fault | x, st₁⟩
  · rfl
  · dsimp only
    cases p.setter with
    | some hook => rfl
    | none =>
      dsimp only
      rw [bind_run, bind_run]
      rcases run₂ : concerning p (settle (Engine.perform d) p x)
        { c with held := [.model m] ++ c.held } st₁ with ⟨fault | w, st₂⟩
      · rfl
      · have inOrder : c.schema.allows st₂.heap p v w = true := by
          obtain ⟨sta, adapted, heap₁⟩ := concerning_ok run₁
          obtain ⟨stb, settled, heap₂⟩ := concerning_ok run₂
          rw [heap₂]
          exact audit_settled (c := { c with held := [.model m] ++ c.held }) adapted settled heap₁
        have passed : audit p v w { c with held := [.model m] ++ c.held } st₂ = (.ok (), st₂) := by
          rw [audit_run, if_pos inOrder]
        exact bind_of_ok passed

/-- An operation ends as it does without looking at what it stores, if those that it has done do. -/
theorem auditedBody_eq (d : Nat) {α : Type} (op : Operation α) :
    auditedBody (Engine.perform d) op = op.body (Engine.perform d) := by
  have builtin : ∀ b v, coerceBuiltin (auditedForm (Engine.perform d)) b v =
      coerceBuiltin (stored (Engine.perform d)) b v := fun b v => by rw [auditedForm_eq]
  cases op with
  | set m p v => exact congrFun (congrFun (congrFun (auditedWrite_eq d) m) p) v
  | coerce t v =>
    cases t with
    | builtin b => exact builtin b v
    | _ => rfl
  | wrap t v =>
    cases t with
    | builtin b => exact builtin b v
    | _ => rfl
  | _ => rfl

theorem audited_eq_perform (d : Nat) {α : Type} (op : Operation α) :
    audited d op = Engine.perform d op := by
  induction d generalizing α with
  | zero => rfl
  | succ d ih =>
    have same : (@audited d) = @Engine.perform d := by
      funext α op
      exact ih op
    show auditedBody (audited d) op = op.body (Engine.perform d)
    rw [same]
    exact auditedBody_eq d op

/-- **Whatever is stored under an enumeration is nothing or the raw value of a constant**, or the
name that an instance was made of.  Whatever the types and the hooks, the data and the options, an
operation ends as it does when all that it stores is looked at on the way, in fields and in arrays,
at any depth: it is never stopped.

In particular, a property of an enumeration that is written without failing holds such a value
afterwards, and nothing else has changed.  In a schema without hooks all enumerations are looked
at. -/
theorem audit_eq_run {α : Type} (op : Operation α) (c : Context) (st : State) :
    op.audit c st = op.run c st ∧
      (∀ m p v st' t cs, setProperty m p v c st = (.ok (), st') → p.setter = none →
        p.type = .model t → c.schema.constants? t = some cs →
          ∃ x, st'.heap = withField st.heap m p x ∧
            cs.allows c.schema st.heap t v x = true) ∧
      (c.schema.Built → ∀ t cs, (c.schema.type t).wrap = .custom (.constants cs) →
        c.schema.constants? t = some cs) := by
  refine ⟨?_, fun m p v st' t cs set setter typed known => ?_, fun built t cs enum => ?_⟩
  · unfold Operation.audit Operation.run
    rw [audited_eq_perform]
  · obtain ⟨d, hd⟩ := setProperty_run m p v c st
    obtain ⟨x, heap, rfl | stored⟩ :=
      writeProperty_ok (Schema.constants?_eq_some.1 known) typed setter
        (hd.symm.trans set)
    · exact ⟨_, heap, rfl⟩
    · exact ⟨x, heap, Constants.allows_of_stored? stored⟩
  · exact Schema.constants?_eq_some.2 (built.enumerates enum)

/-! ### Inks -/

/-- What declares inks: the only one is blue. -/
def inks : Enumeration.Spec := ⟨some "Ink", [("blue", .record ⟨0⟩)], false⟩

/-- The constant. -/
def inkConstants : Constants := ⟨[⟨"blue", ⟨0⟩⟩], false⟩

/-- What declares a swatch: whether it is matte is said in a text. -/
def swatches : Extension :=
  { Extension.empty with name := some "Swatch", properties := [("matte", .marker .string)] }

/-- What declares a pen: it has an ink and a swatch. -/
def pens : Extension :=
  { Extension.empty with
    name := some "Pen"
    properties := [("ink", .type (.model ⟨1⟩)), ("swatch", .type (.model ⟨2⟩))] }

/-- The ink of a pen. -/
def penInk : Property := ⟨"ink", "ink", .model ⟨1⟩, [], none, none, true⟩

/-- The root, inks, swatches and pens. -/
def penSchema : Schema :=
  let s := (Schema.initial.addModel
    (.extended .root .root (Enumeration.extension (some "Ink") inkConstants) [])).2
  let s := (s.addModel (.extended .root .root swatches
    [⟨"matte", "matte", .builtin .string, [], none, none, true⟩])).2
  (s.addModel (.extended .root .root pens
    [penInk, ⟨"swatch", "swatch", .model ⟨2⟩, [], none, none, true⟩])).2

/-- Two records with the same field. -/
def twoInks : Heap :=
  ((Heap.empty.addRecord (.ofList [("matte", .bool true)])).2.addRecord
    (.ofList [("matte", .bool true)])).2

/-- The first is the raw value of the constant. -/
def inked : Heap := (Enumeration.addInstances ⟨1⟩ inks.values twoInks).2

/-- An instance is made of the second. -/
def copied : Except Fault Value × State :=
  (Act.ask (.create ⟨1⟩ (some (.record ⟨1⟩)))).run ⟨penSchema, [.record ⟨1⟩]⟩
    ⟨inked, .throwing, []⟩

/-- The instance and the record that it is made of are put together. -/
def offered : Heap :=
  (copied.2.heap.addRecord (.ofList [("ink", .model ⟨1⟩), ("swatch", .record ⟨1⟩)])).2

/-- A pen is made of them. -/
def penned : Except Fault Value × State :=
  (Act.ask (.create ⟨3⟩ (some (.record ⟨2⟩)))).run ⟨penSchema, [.record ⟨2⟩]⟩
    ⟨offered, .throwing, []⟩

theorem penned_lives : Lives penSchema penned.2.heap := by
  have written : Lives .initial twoInks :=
    (Lives.start.writes _ (Heap.closed_of_cells (by decide +kernel))).writes _
      (Heap.closed_of_cells (by decide +kernel))
  have there : ∀ e ∈ inks.values, twoInks.Holds e.2 := by decide +kernel
  have made : Lives penSchema inked :=
    ((written.enumerate (e := ⟨⟨1⟩, inkConstants⟩) there rfl).extend .root swatches (by decide)
      ⟨rfl, nofun, rfl, rfl⟩ rfl (by decide)).extend .root pens (by decide)
        ⟨rfl, nofun, rfl, rfl⟩ rfl (by decide)
  have instanced : Lives penSchema copied.2.heap :=
    made.does (.ask (.create ⟨1⟩ (some (.record ⟨1⟩)))) (by decide +kernel) rfl
  have built : Lives penSchema offered :=
    instanced.writes _ (Heap.closed_of_cells (by decide +kernel))
  exact built.does (.ask (.create ⟨3⟩ (some (.record ⟨2⟩)))) (by decide +kernel) rfl

/-- The ink of the pen is written by its name. -/
def inkWritten : Except Fault Unit × State :=
  setProperty ⟨2⟩ penInk (.string "blue") ⟨penSchema, [.model ⟨2⟩]⟩ penned.2

/-- Making the pen is not stopped, and the ink that is written later is allowed. -/
theorem audit_eq_run_pen :
    ((Operation.create ⟨3⟩ (some (.record ⟨2⟩))).audit ⟨penSchema, [.record ⟨2⟩]⟩
      ⟨offered, .throwing, []⟩).1 = .ok ⟨2⟩ ∧
      inkWritten.1 = .ok () ∧
      ∃ x, inkWritten.2.heap = withField penned.2.heap ⟨2⟩ penInk x ∧
        inkConstants.allows penSchema penned.2.heap ⟨1⟩ (.string "blue") x = true := by
  have ok : inkWritten.1 = .ok () := by decide +kernel
  have written : inkWritten = (.ok (), inkWritten.2) := by rw [← ok]
  refine ⟨?_, ok, ?_⟩
  · rw [(audit_eq_run _ _ _).1]
    decide +kernel
  · obtain ⟨-, stores, known⟩ := @audit_eq_run Unit (.set ⟨2⟩ penInk (.string "blue"))
      ⟨penSchema, [.model ⟨2⟩]⟩ penned.2
    exact stores _ penInk _ _ ⟨1⟩ _ written rfl rfl
      (known penned_lives.built ⟨1⟩ inkConstants rfl)

/-- A color that is none of the inks is stopped. -/
example : (setProperty ⟨2⟩ penInk (.string "green") ⟨penSchema, [.model ⟨2⟩]⟩ penned.2).1 =
    .error (.error (.invalidValue (some "ink") "green")) := by
  decide +kernel

/-- An instance is made of the name of the constant, which is recorded as invalid. -/
def misnamed : Except Fault Value × State :=
  (Act.ask (.create ⟨1⟩ (some (.string "blue")))).run ⟨penSchema, []⟩ ⟨inked, .collecting [], []⟩

/-- A pen is made with it. -/
def mispenned : Except Fault Value × State :=
  (Act.ask (.create ⟨3⟩ (some (.record ⟨2⟩)))).run ⟨penSchema, [.record ⟨2⟩]⟩
    ⟨(misnamed.2.heap.addRecord (.ofList [("ink", .model ⟨1⟩)])).2, .throwing, []⟩

/-- What was stored in the field of the ink was equal to the raw value of the constant.  Then it was
changed, as a swatch.  Of the instance that is made of the name, the name is stored. -/
theorem ink_not_raw :
    (Lives penSchema penned.2.heap ∧ copied.1 = .ok (.model ⟨1⟩) ∧ penned.1 = .ok (.model ⟨2⟩) ∧
      fieldOf penned.2.heap ⟨2⟩ penInk = .record ⟨1⟩ ∧
      ∀ a ∈ inkConstants.all,
        penned.2.heap.equal (penned.2.heap.data a.model) (.record ⟨1⟩) = false) ∧
    misnamed.1 = .ok (.model ⟨1⟩) ∧ mispenned.1 = .ok (.model ⟨2⟩) ∧
      fieldOf mispenned.2.heap ⟨2⟩ penInk = .string "blue" ∧
      ∀ a ∈ inkConstants.all,
        mispenned.2.heap.equal (mispenned.2.heap.data a.model) (.string "blue") = false :=
  ⟨⟨penned_lives, by decide +kernel, by decide +kernel, by decide +kernel, by decide +kernel⟩,
    by decide +kernel, by decide +kernel, by decide +kernel, by decide +kernel⟩

end Engine

end Overlay
