import Overlay.Proofs.Engine.Acts
import Overlay.Proofs.Engine.Filling
import Overlay.Proofs.Engine.Reading

/-!
# Stored data are well typed

A program creates, wraps, sets, gets and cleans, in any order.  Whatever it hands in, what stands in
the declared fields of its models is in the form that their types store, all the way down.

* `Command.run_typed` : one command keeps the heap typed;
* `Run.typed` : so does a run of them;
* `Run.fields_canonical` : **what the fields of models hold is canonical.**

Nothing checks what stands under a reserved key, not even if a property is stored there, so a model
that is read from such a property is not one of those spoken of (`Run.spare_not_canonical`).
-/

namespace Overlay

/-! ### What a program does -/

namespace Command

open Engine Typing

/-- The model obtained by a result.  A model that stands under a reserved key is not. -/
def obtained? (s : Schema) (h : Heap) : Command → Value → Option ModelId
  | create _ _, v => v.model?
  | wrap _ _, v => v.model?
  | get m name, v => ((s.type (h.type m)).property? name).bind fun p =>
    if isReserved p.storageKey then none else v.model?
  | _, _ => none

variable {s : Schema} {W : Typing} {c : Context} {st : State} {m : ModelId} {v : Value}
  {cells : List Value}

theorem wrap_builtin_typed (depth : Nat) (b : Builtin) (hprop : st.options.property = none)
    (hv : v.isModel = false) (d : W.Describes s st.heap) :
    Typed s cells W st.heap (Engine.perform depth (.wrap (.builtin b) v) c st)
      fun w _ _ => w.isModel = false := by
  cases depth with
  | zero => exact .same d rfl fun _ h => by cases h
  | succ depth =>
    show Typed s cells W st.heap (coerceBuiltin (stored (Engine.perform depth)) b v c st) _
    have kind : ∀ {b : Builtin} {w : Value},
        w.isNothing = true ∨ (w.isModel = false ∧ b.accepts w = true) → w.isModel = false := by
      rintro b w (h | h)
      · cases w <;> first | rfl | cases h
      · exact h.1
    have scalar : ∀ {b : Builtin}, b ≠ .integer → Typed s cells W st.heap (coerceScalar b v c st)
        fun w _ _ => w.isModel = false := fun hb =>
      (coerceScalar_typed hb d hv).imp fun _ _ _ => kind
    cases b with
    | integer => exact (coerceInteger_typed d hv).imp fun _ _ _ => kind
    | object => exact .pure d hv
    | array =>
      show Typed s cells W st.heap (coerceArray _ v c st) _
      unfold coerceArray
      split
      · exact .pure d rfl
      · exact .pure d rfl
      · -- without a property at hand, no elements are declared
        rw [bind_run]
        dsimp only [options]
        rw [hprop]
        exact .pure d rfl
      · exact .invalid d v rfl
    | string => exact scalar nofun
    | number => exact scalar nofun
    | boolean => exact scalar nofun
    | date => exact scalar nofun

theorem wrap_adapter_typed (hs : c.schema.Built) (depth : Nat) (a : AdapterId)
    (d : W.Describes c.schema st.heap) :
    Typed c.schema [] W st.heap (Engine.perform depth (.wrap (.adapter a) v) c st)
      fun w _ _ => w = v := by
  have missing : c.schema.adapter? a = none := by
    rw [Schema.adapter?, hs.adapters]
    rfl
  cases depth with
  | zero => exact .same d rfl fun _ e => by cases e
  | succ depth =>
    show Typed c.schema [] W st.heap (wrapBy _ (.adapter a) v c st) _
    unfold wrapBy
    dsimp only
    rw [bind_run]
    dsimp only [schema]
    rw [missing]
    exact .pure (c := c) d rfl

theorem setProperty_typed (hs : c.schema.Regular) {key : String} {p : Property}
    (models : W.Models c.schema st.heap m)
    (hp : (c.schema.type (st.heap.type m)).property? key = some p)
    (d : W.Describes c.schema st.heap) (y : W.Ready st.heap [v] cells) :
    ∃ cells', Typed c.schema cells' W st.heap (setProperty m p v c st) fun _ _ _ => True := by
  obtain ⟨r, data, role⟩ := models.2 (ModelType.isStructured_of_property? hp)
  obtain ⟨W', h', adv, written⟩ := (perform_stores hs (c.schema.budget p.weight)).set (m := m) rfl
    (hs.built.plainBelow_size hp) d y
  rcases written with ⟨-, heap⟩ | ⟨w, hw, heap⟩
  · exact ⟨cells, W', (congrArg (Advances _ _ _ _ _) heap).mpr adv, fun _ _ => trivial⟩
  · -- the field gets a value of its type
    have record := h'.record?_of_data ((adv.changes.grows.data_eq models.1).trans data)
    rw [record, Option.elim_some] at heap
    have insert : Advances c.schema [.record r] W' h' W' (h'.insert r p.storageKey w) :=
      ⟨h'.changesOnly_insert List.mem_cons_self _ _, .refl W', fun _ _ _ => rfl, fun _ _ _ => rfl,
        adv.describes.insert (adv.more.record r _ role) (hs.keyed _) (hs.built.soundAt _).toPlacedAt
          hp hw⟩
    refine ⟨.record r :: cells, W', (congrArg (Advances _ _ _ _ _) heap).mpr ?_, fun _ _ => trivial⟩
    refine (adv.mono fun v hv => Or.inl (List.mem_cons_of_mem _ hv)).trans insert fun v hv => ?_
    exact Or.inl (List.mem_singleton.1 hv ▸ List.mem_cons_self)

/-- What is read from a typed model is one, unless its key is reserved. -/
theorem getProperty_typed (hs : c.schema.Regular) {name : String} {p : Property}
    (models : W.Models c.schema st.heap m)
    (hp : (c.schema.type (st.heap.type m)).property? name = some p)
    (d : W.Describes c.schema st.heap) :
    Typed c.schema [fieldOf st.heap m p] W st.heap (getProperty m p c st) fun w W' h' =>
      isReserved p.storageKey = false → ∀ m', w = .model m' → W'.Models c.schema h' m' := by
  obtain ⟨depth, run⟩ := getProperty_run m p c st
  rw [run]
  exact readProperty_typed hs rfl _ d models hp

theorem lookup_typed {α : Type} {f : Property → Engine α} {Q : α → Typing → Heap → Prop}
    (d : W.Describes c.schema st.heap) (name : String)
    (found : ∀ p, (c.schema.type (st.heap.type m)).property? name = some p →
      ∃ cells, Typed c.schema cells W st.heap (f p c st) Q) :
    ∃ cells, Typed c.schema cells W st.heap ((property m name >>= f) c st) Q := by
  rw [bind_run]
  rcases hp : (c.schema.type (st.heap.type m)).property? name with _ | p
  · rw [property_missing hp]
    exact ⟨[], .same d rfl fun _ e => by cases e⟩
  · rw [property_found hp]
    exact found p hp

/-- One command, acting on a model of typed data and handing in new trees. -/
theorem run_typed (hs : s.Regular) (hc : c.schema = s) (hprop : st.options.property = none)
    (command : Command) (d : W.Describes s st.heap)
    (known : ∀ m, command.target? = some m → W.Models s st.heap m)
    (y : W.Ready st.heap command.handed cells) :
    ∃ cells', Typed s cells' W st.heap (command.run c st) fun v W' h' =>
      ∀ m, command.obtained? s st.heap v = some m → W'.Models s h' m := by
  subst hc
  cases command with
  | create t data =>
    refine ⟨cells, ?_⟩
    have made : Typed c.schema cells W st.heap (Engine.create t data c st)
        (Constructed c.schema t data) := (perform_stores hs _).create rfl d y
    refine made.seq fun m W' st' adv q => .pure adv.describes fun m' e => ?_
    cases e
    exact q.1
  | wrap t v =>
    cases t with
    | builtin b =>
      refine ⟨cells, (wrap_builtin_typed _ b hprop y.trees.not_model d).imp
        fun w _ _ hw m e => ?_⟩
      cases w <;> first | (cases hw; done) | cases e
    | model t =>
      refine ⟨cells, Typed.imp ((perform_stores hs _).wrap rfl d y) fun w _ _ hw m e => hw.2 m ?_⟩
      cases w <;> cases e
      rfl
    | adapter a =>
      refine ⟨[], (wrap_adapter_typed hs.built _ a d).imp fun w _ _ hw m e => ?_⟩
      have := y.trees.not_model
      rw [← hw] at this
      cases w <;> first | (cases this; done) | cases e
  | set m name v =>
    have models := known m rfl
    obtain ⟨cells', written⟩ := lookup_typed (f := fun p => setProperty m p v) d name
      fun p hp => setProperty_typed hs models hp d y
    exact ⟨cells', written.seq fun _ _ _ adv _ => .pure adv.describes fun _ e => by cases e⟩
  | get m name =>
    have models := known m rfl
    refine lookup_typed (f := fun p => getProperty m p) d name fun p hp =>
      ⟨_, (getProperty_typed hs models hp d).imp fun w W' h' q m' e => ?_⟩
    rw [obtained?, hp, Option.bind_some] at e
    split at e
    · cases e
    · refine q (Bool.eq_false_iff.2 ‹_›) m' ?_
      cases w <;> cases e
      rfl
  | clean m diagnostics =>
    have ext := Snapshot.take_extends c.schema (c.held ++ c.schema.heldValues) st.heap diagnostics
      (.model m)
    exact ⟨[], W, .of_extends d ext [], fun _ _ _ e => by cases e⟩

/-- The models that a program has after a command that ended this way. -/
def modelsAfter (command : Command) (s : Schema) (h : Heap) (ms : List ModelId) :
    Except Fault Value → List ModelId
  | .ok v => (command.obtained? s h v).toList ++ ms
  | .error _ => ms

end Command

/-- A program that uses the types of the schema has obtained these models and left this heap.  It
may start with any heap, hand in new plain trees only and act on the models it has; each command
may run with other options and other values in use, and it may fail. -/
inductive Run (s : Schema) : List ModelId → Heap → Prop
  /-- It has no models to start with. -/
  | start (h : Heap) : Run s [] h
  /-- It gives one more command. -/
  | step {ms : List ModelId} {h : Heap} (command : Command) (c : Context) (st : State)
      (before : Run s ms h) (schema : c.schema = s) (supply : h.Supplies st.heap command.handed)
      (known : ∀ m, command.target? = some m → m ∈ ms) (options : st.options.property = none) :
      Run s (command.modelsAfter s st.heap ms (command.run c st).1) (command.run c st).2.heap

/-- The value is absent, null or in the form that the type stores, all the way down. -/
inductive Canonical (s : Schema) (h : Heap) : DataType → List DataType → Value → Prop
  | nothing {t : DataType} {ts : List DataType} {v : Value} (none : v.isNothing = true) :
    Canonical s h t ts v
  | string {ts : List DataType} (x : String) : Canonical s h (.builtin .string) ts (.string x)
  | number {ts : List DataType} (x : Binary64) : Canonical s h (.builtin .number) ts (.number x)
  /-- A finite number without a fraction. -/
  | integer {ts : List DataType} {x : Binary64} (whole : x.isIntegral = true) :
    Canonical s h (.builtin .integer) ts (.number x)
  | boolean {ts : List DataType} (b : Bool) : Canonical s h (.builtin .boolean) ts (.bool b)
  | date {ts : List DataType} (x : Instant) : Canonical s h (.builtin .date) ts (.date x)
  /-- Any raw value. -/
  | object {ts : List DataType} {v : Value} (raw : v.isModel = false) :
    Canonical s h (.builtin .object) ts v
  /-- An array whose elements are not declared. -/
  | array (a : ArrayId) : Canonical s h (.builtin .array) [] (.array a)
  /-- An array of elements of a declared type. -/
  | arrayOf {t : DataType} {ts : List DataType} {a : ArrayId}
    (elements : ∀ v ∈ h.items a, Canonical s h t ts v) :
    Canonical s h (.builtin .array) (t :: ts) (.array a)
  /-- A record under a type with properties. -/
  | record {t : TypeId} {ts : List DataType} {r : RecordId}
    (fields : ∀ key p, (s.type t).property? key = some p → isReserved p.storageKey = false →
      Canonical s h p.type p.elements ((h.fields r).get p.storageKey)) :
    Canonical s h (.model t) ts (.record r)
  /-- Any raw value under a type that has no properties or does not wrap. -/
  | datum {t : TypeId} {ts : List DataType} {v : Value} (raw : v.isModel = false)
    (unchecked : (s.type t).isStructured = false ∨ (s.type t).wraps = false) :
    Canonical s h (.model t) ts v

section Runs

open Engine Typing

variable {s : Schema} {W : Typing} {h : Heap}

/-- A value that fits is canonical, if what fits further down is. -/
theorem canonical_of_parts (d : W.Describes s h) {t : DataType} {ts : List DataType} {v : Value}
    (fields : ∀ {u key p w}, t = .model u → (s.type u).property? key = some p →
      W.Fits s p.type p.elements w → Canonical s h p.type p.elements w)
    (elements : ∀ {u us w}, ts = u :: us → W.Fits s u us w → Canonical s h u us w)
    (fits : W.Fits s t ts v) : Canonical s h t ts v := by
  rcases fits with none | has
  · exact .nothing none
  · cases t with
    | builtin b =>
      cases b with
      | array =>
        cases ts with
        | nil =>
          obtain ⟨-, kind⟩ := has
          cases v <;> first | exact .array _ | cases kind
        | cons u us =>
          obtain ⟨a, rfl, ha⟩ := has
          exact .arrayOf fun w hw => elements rfl (d.items a u us ha w hw)
      | object => exact .object has.1
      | integer =>
        obtain ⟨-, kind⟩ := has
        cases v <;> first | exact .integer kind | cases kind
      | string =>
        obtain ⟨-, kind⟩ := has
        cases v <;> first | exact .string _ | cases kind
      | number =>
        obtain ⟨-, kind⟩ := has
        cases v <;> first | exact .number _ | cases kind
      | boolean =>
        obtain ⟨-, kind⟩ := has
        cases v <;> first | exact .boolean _ | cases kind
      | date =>
        obtain ⟨-, kind⟩ := has
        cases v <;> first | exact .date _ | cases kind
    | model u =>
      obtain ⟨raw, carries⟩ := has
      by_cases hw : (s.type u).wraps = true
      · by_cases hstr : (s.type u).isStructured = true
        · -- the record has the role of data of the type
          obtain ⟨isRecord, role⟩ := carries hw
          have hr := isRecord hstr
          cases v with
          | record r =>
            refine .record fun key p hp hres => fields rfl hp ?_
            exact (d.fields r u (role r rfl) key p hp).fits hres
          | _ => cases hr
        · exact .datum raw (Or.inl (Bool.eq_false_iff.2 hstr))
      · exact .datum raw (Or.inr (Bool.eq_false_iff.2 hw))
    | adapter a => exact has.elim

/-- What fits a type is canonical for it: properties have earlier types, and elements have fewer
types below them. -/
theorem canonical_of_fits (hs : s.Built) (d : W.Describes s h) {i : Nat} {t : DataType}
    {ts : List DataType} {v : Value} (ht : ∀ u ∈ t :: ts, u.Below i) (fits : W.Fits s t ts v) :
    Canonical s h t ts v := by
  induction i using Nat.strongRecOn generalizing t ts v with
  | ind i ih =>
    have fields : ∀ {t : DataType} {u key p w}, t.Below i → t = .model u →
        (s.type u).property? key = some p →
        W.Fits s p.type p.elements w → Canonical s h p.type p.elements w := by
      intro t u key p w below e hp
      subst e
      exact ih u.index below ((hs.soundAt u).plainBelow hp).types
    induction ts generalizing t v with
    | nil => exact canonical_of_parts d (fields (ht t List.mem_cons_self)) nofun fits
    | cons u us ihs =>
      refine canonical_of_parts d (fields (ht t List.mem_cons_self)) (fun e => ?_) fits
      cases e
      exact ihs fun u' hu => ht u' (List.mem_cons_of_mem _ hu)

theorem ready_of_supplies {h' : Heap} {vs : List Value} (d : W.Describes s h)
    (supply : h.Supplies h' vs) : ∃ cells, W.Ready h' vs cells := by
  obtain ⟨cells, trees, nodup, new⟩ := supply.trees
  refine ⟨cells, trees, nodup, fun v hv => (new v hv).1, fun r hr => ?_, fun a ha => ?_⟩
  · cases role : W.record r with
    | none => rfl
    | some role' => exact absurd (d.recordHeld r role' role) (new _ hr).2
  · cases type : W.array a with
    | none => rfl
    | some type' => exact absurd (d.arrayHeld a type' type) (new _ ha).2

/-- The invariant of a run: the heap is typed, and the models obtained wrap typed data. -/
theorem Run.typed (hs : s.Regular) {ms : List ModelId} (run : Run s ms h) :
    ∃ W : Typing, W.Describes s h ∧ ∀ m ∈ ms, W.Models s h m := by
  induction run with
  | start h => exact ⟨.empty, describes_empty s h, fun _ hm => absurd hm List.not_mem_nil⟩
  | @step ms h command c st before hc supply known hprop ih =>
    obtain ⟨W, d, models⟩ := ih
    obtain ⟨cells, y⟩ := ready_of_supplies d supply
    have supplied := Advances.of_extends d supply.more []
    have models' : ∀ m ∈ ms, W.Models s st.heap m := fun m hm =>
      (models m hm).mono (.refl W) supply.more.grows
    obtain ⟨cells', W', adv, obtained⟩ := command.run_typed hs hc hprop supplied.describes
      (fun m hm => models' m (known m hm)) y
    refine ⟨W', adv.describes, fun m hm => ?_⟩
    have before : ∀ m ∈ ms, W'.Models s (command.run c st).2.heap m := fun m hm =>
      (models' m hm).mono adv.more adv.changes.grows
    rcases hresult : (command.run c st).1 with fault | v
    · rw [hresult] at hm
      exact before m hm
    · rw [hresult] at hm
      rcases List.mem_append.1 hm with hm | hm
      · exact obtained v hresult m (Option.mem_toList.1 hm)
      · exact before m hm

/-- **Stored data are well typed.**  Let a schema be built without hooks, with no property stored
under the name or the storage key of another one, and let a program create, wrap, set, get and
clean in any order, with any options, handing in new plain trees, whether its commands succeed or
fail.  Whatever model it has obtained other than from under a reserved key, what the model's record
holds under the storage key of a declared property, unless that key is reserved, is absent, null or
canonical for the property. -/
theorem Run.fields_canonical (hs : s.Regular) {ms : List ModelId} (run : Run s ms h) {m : ModelId}
    (hm : m ∈ ms) {key : String} {p : Property} (hp : (s.type (h.type m)).property? key = some p)
    (hres : isReserved p.storageKey = false) :
    Canonical s h p.type p.elements (fieldOf h m p) := by
  obtain ⟨W, d, models⟩ := run.typed hs
  have fits := (suits_fieldOf d (models m hm) hp).fits hres
  exact canonical_of_fits hs.built d (hs.built.plainBelow_size hp).types fits

end Runs

/-! ### Boxes with an item -/

namespace Run

/-- What declares an item with a number. -/
def items : Extension :=
  { Extension.empty with name := some "Item", properties := [("n", .marker .number)] }

/-- What declares a box with an item, and another one under a reserved key. -/
def boxes : Extension :=
  { Extension.empty with
    name := some "Box"
    properties := [("item", .type (.model ⟨1⟩)),
      ("spare", .detailed (some (.type (.model ⟨1⟩))) none (some "$spare") none none true)] }

/-- The number of an item. -/
def itemNumber : Property := ⟨"n", "n", .builtin .number, [], none, none, true⟩

/-- The item in a box. -/
def boxedItem : Property := ⟨"item", "item", .model ⟨1⟩, [], none, none, true⟩

/-- The root, items and boxes. -/
def boxSchema : Schema :=
  let s := (Schema.initial.addModel (.extended .root .root items [itemNumber])).2
  (s.addModel (.extended .root .root boxes
    [⟨"item", "item", .model ⟨1⟩, [], none, none, true⟩,
      ⟨"spare", "$spare", .model ⟨1⟩, [], none, none, true⟩])).2

theorem boxSchema_regular : boxSchema.Regular := by
  have built : boxSchema.Built :=
    (Schema.Built.initial.extend .root items (by decide) ⟨rfl, nofun, rfl, rfl⟩ rfl
      (by decide)).extend .root boxes (by decide) ⟨rfl, nofun, rfl, rfl⟩ rfl (by decide)
  have listed : ∀ t ∈ boxSchema.models.toList, ∀ e ∈ t.properties.layers.flatMap (·.entries),
      ∀ e' ∈ t.properties.layers.flatMap (·.entries),
        (e.2.name = e'.2.name → e.2.storageKey = e'.2.storageKey) ∧
          (e.2.name ≠ e'.2.name →
            e.2.storageKey ≠ e'.2.name ∧ e.2.storageKey ≠ e'.2.storageKey) := by
    decide +kernel
  exact built.regular (by decide +kernel) fun t ht => ModelType.wellKeyed_of_listed (listed t ht)

/-- The record of an item whose number is a text, in a field of the record of a box. -/
def packed (key : String) : Heap :=
  ⟨#[⟨.ofList [("n", .string "5")], none⟩, ⟨.ofList [(key, .record ⟨0⟩)], none⟩], #[], #[]⟩

theorem supplies_packed {key : String}
    (he : ((packed key).fields ⟨1⟩).values = [.record ⟨0⟩]) :
    Heap.empty.Supplies (packed key) [.record ⟨1⟩] := by
  have item : (packed key).Trees ((packed key).fields ⟨0⟩).values [] := .scalar rfl .nil
  have box : (packed key).Trees ((packed key).fields ⟨1⟩).values [.record ⟨0⟩] := by
    rw [he]
    exact .record rfl item .nil
  have nothing : ∀ {α : Type} (cells : Array α), Within #[] cells := fun _ _ _ h => by simp at h
  refine ⟨⟨nothing _, nothing _, nothing _⟩, _, .record rfl box .nil, by decide, ?_⟩
  simp [Heap.Holds, Heap.empty, packed]

/-- Makes a box of the record. -/
def makeBox (key : String) : Except Fault Value × State :=
  (Command.create ⟨2⟩ (some (.record ⟨1⟩))).run ⟨boxSchema, []⟩ ⟨packed key, .throwing, []⟩

/-- Gets an item out of the box. -/
def openBox (key name : String) : Except Fault Value × State :=
  (Command.get ⟨0⟩ name).run ⟨boxSchema, [.model ⟨0⟩]⟩ (makeBox key).2

theorem run_openBox : Run boxSchema [⟨2⟩, ⟨0⟩] (openBox "item" "item").2.heap := by
  have box : Command.modelsAfter (.create ⟨2⟩ (some (.record ⟨1⟩))) boxSchema (packed "item") []
      (makeBox "item").1 = [⟨0⟩] := by decide +kernel
  have item : Command.modelsAfter (.get ⟨0⟩ "item") boxSchema (makeBox "item").2.heap [⟨0⟩]
      (openBox "item" "item").1 = [⟨2⟩, ⟨0⟩] := by decide +kernel
  have started : Run boxSchema [] .empty := .start .empty
  have supply : Heap.empty.Supplies (packed "item") [.record ⟨1⟩] :=
    supplies_packed (by decide +kernel)
  have made := Run.step (.create ⟨2⟩ (some (.record ⟨1⟩))) ⟨boxSchema, []⟩
    ⟨packed "item", .throwing, []⟩ started rfl supply nofun rfl
  have making : (Command.create ⟨2⟩ (some (.record ⟨1⟩))).run ⟨boxSchema, []⟩
      ⟨packed "item", .throwing, []⟩ = makeBox "item" := rfl
  rw [making, box] at made
  have opened := Run.step (.get ⟨0⟩ "item") ⟨boxSchema, [.model ⟨0⟩]⟩ (makeBox "item").2 made rfl
    ⟨.refl _, [], .nil, List.nodup_nil, fun _ h => absurd h List.not_mem_nil⟩
    (fun m e => by cases e; exact List.mem_singleton_self _) (by decide +kernel)
  have opening : (Command.get ⟨0⟩ "item").run ⟨boxSchema, [.model ⟨0⟩]⟩ (makeBox "item").2 =
      openBox "item" "item" := rfl
  rw [opening, item] at opened
  exact opened

/-- The item of a box that was made of raw data has a number. -/
theorem fields_canonical_box :
    Engine.fieldOf (openBox "item" "item").2.heap ⟨2⟩ itemNumber = .number (.ofInt 5) ∧
      Canonical boxSchema (openBox "item" "item").2.heap (.builtin .number) []
        (Engine.fieldOf (openBox "item" "item").2.heap ⟨2⟩ itemNumber) := by
  refine ⟨by decide +kernel, ?_⟩
  have found : (boxSchema.type ((openBox "item" "item").2.heap.type ⟨2⟩)).property? "n" =
      some itemNumber := by decide +kernel
  exact Run.fields_canonical boxSchema_regular run_openBox (m := ⟨2⟩) (by decide) found
    (by decide +kernel)

/-- A box that was made without a spare item has none. -/
example : (openBox "item" "spare").1 = .ok .undefined := by decide +kernel

/-- What stands under the reserved key is raw, and getting it gives a model around raw data. -/
theorem spare_not_canonical :
    boxSchema.Regular ∧ Heap.empty.Supplies (packed "$spare") [.record ⟨1⟩] ∧
      (makeBox "$spare").1 = .ok (.model ⟨0⟩) ∧
      (openBox "$spare" "spare").1 = .ok (.model ⟨1⟩) ∧
      (boxSchema.type ((openBox "$spare" "spare").2.heap.type ⟨1⟩)).property? "n" =
        some itemNumber ∧
      isReserved itemNumber.storageKey = false ∧
      ¬ Canonical boxSchema (openBox "$spare" "spare").2.heap itemNumber.type itemNumber.elements
        (Engine.fieldOf (openBox "$spare" "spare").2.heap ⟨1⟩ itemNumber) := by
  have text : Engine.fieldOf (openBox "$spare" "spare").2.heap ⟨1⟩ itemNumber = .string "5" := by
    decide +kernel
  refine ⟨boxSchema_regular, supplies_packed (by decide +kernel), by decide +kernel,
    by decide +kernel, by decide +kernel, by decide +kernel, fun canonical => ?_⟩
  rw [text] at canonical
  cases canonical with
  | nothing none => cases none

end Run

end Overlay
