import Overlay.Proofs.Engine.Renewing
import Overlay.Proofs.Engine.Stored

/-!
# Reading without checks

Reading a field attaches a model to the stored record and checks nothing.  A program that creates,
sets and gets, and that stops at the first error, has nothing to fear from that: whatever it stored
was checked through and through, so that asking the type for a model of the record, with all the
checks that this involves, gives the same and changes nothing.

* `Engine.create_checked`, `Engine.set_keeps`, `Engine.readProperty_keeps` : what one command does;
* `ThrowingRun.checked` : what a run of them does;
* `ThrowingRun.represent_agrees` : **reading agrees with wrapping.**

What is handed to a constructor under a reserved key is not checked, so a property that is stored
there is left out (`ThrowingRun.spare_disagrees`).
-/

namespace Overlay

namespace Engine

open Typing

/-- What a model of a type with properties wraps has been checked. -/
def Checked (s : Schema) (h : Heap) (m : ModelId) : Prop :=
  (s.type (h.type m)).isStructured = true → Vetted s h (.model (h.type m)) [] (h.data m)

section Steps

variable {s : Schema} {c : Context} {st st' : State} {h h' : Heap} {W : Typing} {t : TypeId}
  {m : ModelId} {v : Value} {cells : List Value}

/-- Whatever has been checked and is of its type stays so. -/
def Keeps (s : Schema) (W : Typing) (h h' : Heap) : Prop :=
  ∀ {t ts v}, Vetted s h t ts v → W.Fits s t ts v → Vetted s h' t ts v

theorem Checked.mono (checked : Checked s h m) (models : W.Models s h m)
    (grows : h.Grows h') (keeps : Keeps s W h h') : Checked s h' m := by
  intro structured
  rw [grows.type_eq models.1] at structured ⊢
  rw [grows.data_eq models.1]
  obtain ⟨r, data, role⟩ := models.2 structured
  have has : W.Has s (.model (h.type m)) [] (.record r) :=
    ⟨rfl, fun _ => ⟨fun _ => rfl, fun r' e => by cases e; exact role⟩⟩
  exact keeps (checked structured) (data ▸ Or.inr has)

theorem Checked.fieldOf (d : s.Direct) (checked : Checked s h m) (models : W.Models s h m)
    {key : String} {p : Property} (found : (s.type (h.type m)).property? key = some p)
    (free : isReserved p.storageKey = false) : Vetted s h p.type p.elements (fieldOf h m p) := by
  have structured := ModelType.isStructured_of_property? found
  obtain ⟨r, data, -⟩ := models.2 structured
  have vetted := checked structured
  rw [data] at vetted
  rw [Engine.fieldOf, Heap.record?, data]
  refine vetted.fields _ p (ModelType.through?_eq_some.2 ⟨free, ?_⟩)
  rw [d.storageKey_eq found]
  exact found

/-- A model that is found from a record that has been checked is an instance of the declared type,
so it wraps what has been checked. -/
theorem checked_of_liveWrapper? (d : s.Direct) (describes : W.Describes s h) {ts : List DataType}
    {r : RecordId} (vetted : Vetted s h (.model t) ts (.record r))
    (fits : W.Fits s (.model t) ts (.record r)) (found : liveWrapper? c h (.record r) = some m) :
    Checked s h m := by
  intro _
  have role := ((fits.resolve_left (by exact Bool.false_ne_true)).2 (d.isOpen.wraps t)).2 r rfl
  obtain ⟨r', e, attached⟩ := attached?_of_liveWrapper? found
  cases e
  obtain ⟨-, data, same⟩ := describes.attached r t m role attached
  rw [data, same]
  exact .record vetted.keys vetted.fields

/-! ### Creating -/

/-- A model that is made without an objection wraps data that have been checked. -/
theorem create_checked (d : s.Direct) (hc : c.schema = s) (hp : st.options.property = none)
    (throws : st.options.diagnostics = none) {data : Option Value}
    (y : W.Ready st.heap data.toList cells) (run : create t data c st = (.ok m, st')) :
    Checked s st'.heap m := by
  intro structured
  rw [create_type run] at structured
  have trees : st.heap.Trees [data.getD .undefined] cells := by
    cases data with
    | none => exact .scalar rfl y.trees
    | some v => exact y.trees
  obtain ⟨x, sh⟩ := trees.shows_one
  obtain ⟨_, -, quiet, -, r, fields, rfl, stands⟩ := create_standing
    d.isOpen.built.stratified (d.isOpen.free t) hc hp structured trees y.nodup y.held sh run
  rw [stands.type, stands.data]
  exact .of_constructed d structured (sh.proper x List.mem_cons_self) (quiet throws) stands.keys
    stands.shows

/-! ### Setting -/

/-- A set leaves in the field what has been checked for the property, if it succeeds, and otherwise
it changes nothing that was there. -/
theorem set_keeps (d : s.Direct) (hc : c.schema = s) (hp : st.options.property = none)
    (throws : st.options.diagnostics = none) (describes : W.Describes s st.heap)
    (models : W.Models s st.heap m) (y : W.Ready st.heap [v] cells) (name : String) :
    Keeps s W st.heap (set m name v c st).2.heap := by
  subst hc
  intro t ts u vetted fits
  cases found : (c.schema.type (st.heap.type m)).property? name with
  | none =>
    unfold set
    rw [bind_run, property_missing found]
    exact vetted
  | some p =>
    obtain ⟨r, data, role⟩ := models.2 (ModelType.isStructured_of_property? found)
    have plain := d.isOpen.built.plainBelow_size found
    cases run : set m name v c st with | mk result st' => ?_
    cases result with
    | error fault =>
      -- only the value that was to be stored has changed
      obtain ⟨depth, hd⟩ := setProperty_run m p v c st
      obtain ⟨W', adv, -⟩ := prepared_typed { c with held := [.model m] ++ c.held } st
        (perform_stores d.regular (depth + 1)) rfl plain describes y
      rw [set_declared found, hd, writeProperty_run _ plain.setter] at run
      generalize
        prepared (Engine.perform (depth + 1)) p v { c with held := [.model m] ++ c.held } st = mid
        at run adv
      obtain ⟨fault' | w, st''⟩ := mid
      · cases run
        exact describes.vetted_of_changesOnly d adv.changes y.untyped vetted fits
      · cases run
    | ok =>
      have hs := d.isOpen.built.stratified
      have freeProp := (d.isOpen.free _).property hs found
      obtain ⟨x, sh⟩ := y.trees.shows_one
      obtain ⟨z, -, quiet, -, -, w, h', changes, settled, heap⟩ :=
        (setProperty_wroteFrom hs rfl freeProp models.1 data y.trees y.nodup y.held sh).verdict_of_ok
          (setProperty_orderly hs freeProp.calmBelow m v) rfl hp
          ((set_declared found v).symm.trans run)
      have shown := settled.shows_stored.of_changesOnly
        (h'.changesOnly_insert List.mem_cons_self p.storageKey w) fun u hu => by
          have hu := hu.resolve_left id
          refine ⟨(y.held u hu).grows changes.grows, fun e => ?_⟩
          rw [List.mem_singleton.1 e] at hu
          cases (y.untyped.record r hu).symm.trans role
      have checked := Vetted.of_stored (q := p.slot) d (d.declared found)
        (sh.proper x List.mem_cons_self) (quiet throws) shown
      rw [heap]
      exact describes.vetted_insert d changes y.untyped role
        (by rw [d.storageKey_eq found]; exact found) checked vetted fits

/-! ### Getting -/

/-- Reading data as an instance of a type with properties changes no field and no element, and gives
a model of data that have been checked if these have. -/
theorem represent_keeps (d : c.schema.Direct) (depth : Nat)
    (structured : (c.schema.type t).isStructured = true) (describes : W.Describes c.schema st.heap)
    (raw : v.isModel = false) :
    (∀ r, (represent (Engine.perform depth) t v c st).2.heap.fields r = st.heap.fields r) ∧
    (∀ a, (represent (Engine.perform depth) t v c st).2.heap.items a = st.heap.items a) ∧
    ∀ i, (represent (Engine.perform depth) t v c st).1 = .ok (.model i) →
      ∀ ts, Vetted c.schema st.heap (.model t) ts v → W.Fits c.schema (.model t) ts v →
        Checked c.schema (represent (Engine.perform depth) t v c st).2.heap i := by
  cases isRecord : v.isRecord with
  | false =>
    rw [represent_other _ c st structured isRecord]
    obtain ⟨heap, live⟩ := wrap_barred d.regular depth { st with options := .throwing } raw
      (Or.inr (Or.inr ⟨structured, isRecord⟩))
    refine ⟨fun r => ?_, fun a => ?_, fun i ok => ?_⟩
    · rw [apart_heap, heap]
    · rw [apart_heap, heap]
    · obtain ⟨r, rfl, -⟩ := attached?_of_liveWrapper? (live i ok)
      cases isRecord
  | true =>
    obtain ⟨r, rfl⟩ := Value.exists_of_isRecord isRecord
    cases alone : liveWrapper? c st.heap (.record r) with
    | some found =>
      rw [represent_run _ c st (d.isOpen.wrap t) rfl rfl rfl fun _ => rfl,
        if_pos (d.isOpen.instances t), alone]
      refine ⟨fun _ => rfl, fun _ => rfl, fun i ok ts vetted fits => ?_⟩
      cases ok
      exact checked_of_liveWrapper? d describes vetted fits alone
    | none =>
      obtain ⟨i, ok, same, made, data⟩ :=
        represent_encloses d rfl (Engine.perform depth) structured alone
      refine ⟨same.fields, same.items, fun j ok' ts vetted _ _ => ?_⟩
      cases ok.symm.trans ok'
      replace vetted := same.vetted vetted
      rw [data, made]
      exact .record vetted.keys vetted.fields

/-- Reading changes no field and no element.  The model that it gives, unless it is from under a
reserved key, wraps data that have been checked if those of the model that is read have. -/
theorem readProperty_keeps (d : s.Direct) (hc : c.schema = s) (depth : Nat)
    (describes : W.Describes s st.heap) (models : W.Models s st.heap m) {name : String}
    {p : Property} (found : (s.type (st.heap.type m)).property? name = some p) :
    (∀ r, (readProperty (Engine.perform depth) m p c st).2.heap.fields r = st.heap.fields r) ∧
    (∀ a, (readProperty (Engine.perform depth) m p c st).2.heap.items a = st.heap.items a) ∧
    ∀ i, (readProperty (Engine.perform depth) m p c st).1 = .ok (.model i) →
      isReserved p.storageKey = false → Checked s st.heap m →
        Checked s (readProperty (Engine.perform depth) m p c st).2.heap i := by
  subst hc
  have plain := d.isOpen.built.plainBelow_size found
  have suits := suits_fieldOf describes models found
  have raw := suits.not_model
  have nothing : ∀ {w : Value}, w = fieldOf st.heap m p → ∀ i,
      (.ok w : Except Fault Value) ≠ .ok (.model i) := by
    rintro w e i h
    cases h
    rw [← e] at raw
    cases raw
  rcases type : p.type with b | t | a
  · rw [readProperty_builtin _ c st m plain.getter type]
    exact ⟨fun _ => rfl, fun _ => rfl, fun i h => absurd h (nothing rfl i)⟩
  · rw [readProperty_model _ c st m plain.getter type]
    split
    · exact ⟨fun _ => rfl, fun _ => rfl, fun i h => absurd h (nothing rfl i)⟩
    · have structured : (c.schema.type t).isStructured = true := by
        have := d.declared found _ List.mem_cons_self
        rwa [type] at this
      split
      · have same : st.heap.unwrap (fieldOf st.heap m p) = fieldOf st.heap m p := by
          cases h : fieldOf st.heap m p <;> rw [h] at raw <;> first | rfl | cases raw
        exact ⟨fun _ => rfl, fun _ => rfl, fun i h => absurd h (nothing same i)⟩
      · obtain ⟨fields, items, gives⟩ := represent_keeps
          (c := { c with held := [.model m] ++ c.held }) d depth structured describes raw
        refine ⟨fields, items, fun i ok free checked => gives i ok p.elements ?_ ?_⟩
        · exact type ▸ Checked.fieldOf d checked models found free
        · exact type ▸ suits.fits free
  · have := d.declared found _ List.mem_cons_self
    rw [type] at this
    cases this

end Steps

end Engine

/-! ### Commands -/

namespace Command

open Engine Typing

/-- It makes, writes or reads a model. -/
def Basic : Command → Prop
  | create _ _ => True
  | set _ _ _ => True
  | get _ _ => True
  | _ => False

variable {s : Schema} {W : Typing} {c : Context} {st : State} {cells : List Value}

/-- One such command, in throwing mode: what has been checked stays so, and the model obtained wraps
data that have been checked. -/
theorem run_keeps (d : s.Direct) (hc : c.schema = s) (hp : st.options.property = none)
    (throws : st.options.diagnostics = none) {command : Command} (basic : command.Basic)
    (describes : W.Describes s st.heap)
    (known : ∀ m, command.target? = some m → W.Models s st.heap m ∧ Checked s st.heap m)
    (y : W.Ready st.heap command.handed cells) :
    Keeps s W st.heap (command.run c st).2.heap ∧
      ∀ v m, (command.run c st).1 = .ok v → command.obtained? s st.heap v = some m →
        Checked s (command.run c st).2.heap m := by
  cases command with
  | create t data =>
    have made : Typed s cells W st.heap (Engine.create t data c st) (Constructed s t data) :=
      (perform_stores d.regular _).create hc describes y
    obtain ⟨W', adv, -⟩ := made
    have heap : ((create t data).run c st).2.heap = (Engine.create t data c st).2.heap :=
      bind_pure_heap _ _ c st
    rw [heap]
    refine ⟨fun vetted fits => describes.vetted_of_changesOnly d adv.changes y.untyped vetted fits,
      fun v m ok obtained => ?_⟩
    obtain ⟨m', st', run, e⟩ := bind_ok (Prod.ext ok rfl)
    cases e
    cases obtained
    rw [run]
    exact create_checked d hc hp throws y run
  | set m name v =>
    have heap : ((set m name v).run c st).2.heap = (Engine.set m name v c st).2.heap :=
      bind_pure_heap _ _ c st
    rw [heap]
    exact ⟨set_keeps d hc hp throws describes (known m rfl).1 y name, fun _ _ _ e => nomatch e⟩
  | get m name =>
    obtain ⟨models, checked⟩ := known m rfl
    subst hc
    have run : (get m name).run c st = Engine.get m name c st := rfl
    rw [run]
    cases found : (c.schema.type (st.heap.type m)).property? name with
    | none =>
      unfold Engine.get
      rw [bind_run, property_missing found]
      exact ⟨fun vetted _ => vetted, fun _ _ ok => nomatch ok⟩
    | some p =>
      obtain ⟨depth, read⟩ := getProperty_run m p c st
      rw [get_declared found, read]
      obtain ⟨fields, items, obtains⟩ := readProperty_keeps d rfl (depth + 1) describes models found
      refine ⟨fun vetted _ => vetted.of_same fields items, fun v i ok obtained => ?_⟩
      -- a model under a reserved key does not count as obtained
      rw [obtained?, found, Option.bind_some] at obtained
      split at obtained
      · cases obtained
      · refine obtains i ?_ (Bool.eq_false_iff.2 ‹_›) checked
        cases v <;> cases obtained
        exact ok
  | _ => exact basic.elim

end Command

/-! ### Runs -/

/-- A program that uses the types of the schema, and that stops at the first error in what it hands
in, has obtained these models and left this heap.  It may start with any heap, makes models of new
plain trees, sets their properties to such trees, and gets them. -/
inductive ThrowingRun (s : Schema) : List ModelId → Heap → Prop
  /-- It has no models to start with. -/
  | start (h : Heap) : ThrowingRun s [] h
  /-- It gives one more command. -/
  | step {ms : List ModelId} {h : Heap} (command : Command) (c : Context) (st : State)
      (before : ThrowingRun s ms h) (basic : command.Basic) (schema : c.schema = s)
      (supply : h.Supplies st.heap command.handed) (known : ∀ m, command.target? = some m → m ∈ ms)
      (property : st.options.property = none) (throws : st.options.diagnostics = none) :
      ThrowingRun s (command.modelsAfter s st.heap ms (command.run c st).1) (command.run c st).2.heap

namespace ThrowingRun

open Engine Typing

variable {s : Schema} {h : Heap} {ms : List ModelId} {m : ModelId}

/-- The invariant of a run: the heap is typed, and the models obtained wrap data that have been
checked. -/
theorem checked (d : s.Direct) (run : ThrowingRun s ms h) :
    ∃ W : Typing, W.Describes s h ∧ ∀ m ∈ ms, W.Models s h m ∧ Checked s h m := by
  induction run with
  | start h => exact ⟨.empty, describes_empty s h, fun _ hm => absurd hm List.not_mem_nil⟩
  | @step ms h command c st before basic hc supply known hp throws ih =>
    obtain ⟨W, describes, known'⟩ := ih
    obtain ⟨cells, y⟩ := ready_of_supplies describes supply
    -- the new trees are of cells that have no types yet
    have supplied : W.Describes s st.heap := (Advances.of_extends describes supply.more []).describes
    have old : ∀ m ∈ ms, W.Models s st.heap m ∧ Checked s st.heap m := fun m hm => by
      obtain ⟨models, checked⟩ := known' m hm
      refine ⟨models.mono (.refl W) supply.more.grows, checked.mono models supply.more.grows ?_⟩
      exact fun vetted fits => describes.vetted_of_changesOnly d (supply.more.changesOnly [])
        ⟨fun _ h => absurd h List.not_mem_nil, fun _ h => absurd h List.not_mem_nil⟩ vetted fits
    have target := fun m hm => old m (known m hm)
    obtain ⟨cells', W', adv, obtained⟩ :=
      command.run_typed d.regular hc hp supplied (fun m hm => (target m hm).1) y
    obtain ⟨keeps, obtains⟩ := Command.run_keeps d hc hp throws basic supplied target y
    refine ⟨W', adv.describes, fun m hm => ?_⟩
    have still : m ∈ ms → W'.Models s (command.run c st).2.heap m ∧
        Checked s (command.run c st).2.heap m := fun hm =>
      have ⟨models, checked⟩ := old m hm
      ⟨models.mono adv.more adv.changes.grows, checked.mono models adv.changes.grows keeps⟩
    rcases result : (command.run c st).1 with fault | v
    · rw [result] at hm
      exact still hm
    · rw [result] at hm
      rcases List.mem_append.1 hm with hm | hm
      · have got := Option.mem_toList.1 hm
        exact ⟨obtained v result m got, obtains v m result got⟩
      · exact still hm

/-- **Reading agrees with wrapping.**  Let all types of a schema be open, with properties that are
stored under their names and declared with types that have properties of their own.  Let a program
create, set and get, in any order, handing in new plain trees only and stopping at the first error
in them.  Take any property of a model that it has obtained other than from under a reserved key,
unless the property is stored under such a key itself, and any record there that is declared with a
model type: what the property is stored as, an element of it, or what is further down.

If no model of the record is in use, reading it as an instance of its type, without any check, and
wrapping it by the type, with all of them, both succeed, in whatever mode.  They give a new model of
just the type around the very record, and change no field of any record and no element of any
array. -/
theorem represent_agrees (d : s.Direct) (run : ThrowingRun s ms h) (hm : m ∈ ms) {key : String}
    {p : Property} (hp : (s.type (h.type m)).property? key = some p)
    (free : isReserved p.storageKey = false) {t : TypeId} {ts : List DataType} {r : RecordId}
    (places : Places s h p.type p.elements (fieldOf h m p) (.model t) ts (.record r)) {c : Context}
    {st : State} (hc : c.schema = s) (heap : st.heap = h) (hand : st.options.property = none)
    (alone : liveWrapper? c h (.record r) = none) (depth : Nat) :
    Encloses t r st (represent (Engine.perform depth) t (.record r) c st) ∧
      Encloses t r st (wrap (.model t) (.record r) c st) := by
  subst heap
  obtain ⟨W, -, known⟩ := run.checked d
  obtain ⟨models, checked⟩ := known m hm
  -- the field has been checked, and so has the record
  have own := (checked.fieldOf d models hp free).places places
  have declared : (s.type t).isStructured = true :=
    places.declared d (d.declared hp) _ List.mem_cons_self
  exact ⟨represent_encloses d hc _ declared alone, wrap_vetted d hc hand declared own alone⟩

/-! ### Crates -/

/-- What declares a crate with an item, and another one under a reserved key. -/
def crates : Extension :=
  { Extension.empty with
    name := some "Crate"
    properties := [("item", .type (.model ⟨1⟩)), ("$item", .type (.model ⟨1⟩))] }

/-- The spare item of a crate. -/
def spareItem : Property := ⟨"$item", "$item", .model ⟨1⟩, [], none, none, true⟩

/-- The root, items and crates. -/
def crateSchema : Schema :=
  let s := (Schema.initial.addModel (.extended .root .root Run.items [Run.itemNumber])).2
  (s.addModel (.extended .root .root crates [Run.boxedItem, spareItem])).2

theorem crateSchema_direct : crateSchema.Direct := by
  have built : crateSchema.Built :=
    (Schema.Built.initial.extend .root Run.items (by decide) ⟨rfl, nofun, rfl, rfl⟩ rfl
      (by decide)).extend .root crates (by decide) ⟨rfl, nofun, rfl, rfl⟩ rfl (by decide)
  exact .of_listed (built.isOpen (by decide +kernel)) (by decide +kernel)

/-- The record of an item with a text, in a field of the record of a crate. -/
def cargo (key text : String) : Heap :=
  ⟨#[⟨.ofList [("n", .string text)], none⟩, ⟨.ofList [(key, .record ⟨0⟩)], none⟩], #[], #[]⟩

/-- Makes a crate of the record. -/
def makeCrate (key text : String) : Except Fault Value × State :=
  (Command.create ⟨2⟩ (some (.record ⟨1⟩))).run ⟨crateSchema, []⟩ ⟨cargo key text, .throwing, []⟩

/-- The crate is in use. -/
def crateInUse : Context := ⟨crateSchema, [.model ⟨0⟩]⟩

theorem run_makeCrate {key text : String}
    (fields : ((cargo key text).fields ⟨1⟩).values = [.record ⟨0⟩])
    (result : (makeCrate key text).1 = .ok (.model ⟨0⟩)) :
    ThrowingRun crateSchema [⟨0⟩] (makeCrate key text).2.heap := by
  have item : (cargo key text).Trees ((cargo key text).fields ⟨0⟩).values [] := .scalar rfl .nil
  have crate : (cargo key text).Trees ((cargo key text).fields ⟨1⟩).values [.record ⟨0⟩] := by
    rw [fields]
    exact .record rfl item .nil
  have nothing : ∀ {α : Type} (cells : Array α), Within #[] cells := fun _ _ _ h => by simp at h
  have supply : Heap.empty.Supplies (cargo key text) [.record ⟨1⟩] := by
    refine ⟨⟨nothing _, nothing _, nothing _⟩, _, .record rfl crate .nil, by decide, ?_⟩
    simp [Heap.Holds, Heap.empty, cargo]
  have made := ThrowingRun.step (.create ⟨2⟩ (some (.record ⟨1⟩))) ⟨crateSchema, []⟩
    ⟨cargo key text, .throwing, []⟩ (.start .empty) trivial rfl supply
    (fun _ e => by cases e) rfl rfl
  have making : (Command.create ⟨2⟩ (some (.record ⟨1⟩))).run ⟨crateSchema, []⟩
      ⟨cargo key text, .throwing, []⟩ = makeCrate key text := rfl
  rw [making, result] at made
  exact made

/-- The item of a crate is read and wrapped alike. -/
theorem represent_agrees_crate :
    Encloses ⟨1⟩ ⟨0⟩ (makeCrate "item" "5").2
        (represent (Engine.perform 2) ⟨1⟩ (.record ⟨0⟩) crateInUse (makeCrate "item" "5").2) ∧
      Encloses ⟨1⟩ ⟨0⟩ (makeCrate "item" "5").2
        (wrap (.model ⟨1⟩) (.record ⟨0⟩) crateInUse (makeCrate "item" "5").2) := by
  have run : ThrowingRun crateSchema [⟨0⟩] (makeCrate "item" "5").2.heap :=
    run_makeCrate (by decide +kernel) (by decide +kernel)
  have found : (crateSchema.type ((makeCrate "item" "5").2.heap.type ⟨0⟩)).property? "item" =
      some Run.boxedItem := by decide +kernel
  have field : fieldOf (makeCrate "item" "5").2.heap ⟨0⟩ Run.boxedItem = .record ⟨0⟩ := by
    decide +kernel
  have places : Places crateSchema (makeCrate "item" "5").2.heap (.model ⟨1⟩) []
      (fieldOf (makeCrate "item" "5").2.heap ⟨0⟩ Run.boxedItem) (.model ⟨1⟩) [] (.record ⟨0⟩) := by
    rw [field]
    exact .here (.model ⟨1⟩) [] (.record ⟨0⟩)
  exact represent_agrees crateSchema_direct run List.mem_cons_self found (by decide +kernel) places rfl
    rfl (by decide +kernel) (by decide +kernel) 2

/-- The spare item of a crate is read, whatever is in it, but it cannot be wrapped. -/
theorem spare_disagrees :
    crateSchema.Direct ∧ ThrowingRun crateSchema [⟨0⟩] (makeCrate "$item" "abc").2.heap ∧
      (crateSchema.type ((makeCrate "$item" "abc").2.heap.type ⟨0⟩)).property? "$item" =
        some spareItem ∧
      fieldOf (makeCrate "$item" "abc").2.heap ⟨0⟩ spareItem = .record ⟨0⟩ ∧
      liveWrapper? crateInUse (makeCrate "$item" "abc").2.heap (.record ⟨0⟩) = none ∧
      (represent (Engine.perform 2) ⟨1⟩ (.record ⟨0⟩) crateInUse (makeCrate "$item" "abc").2).1 =
        .ok (.model ⟨1⟩) ∧
      (wrap (.model ⟨1⟩) (.record ⟨0⟩) crateInUse (makeCrate "$item" "abc").2).1 =
        .error (.error (.invalidValue (some "n") "abc")) :=
  ⟨crateSchema_direct, run_makeCrate (by decide +kernel) (by decide +kernel), by decide +kernel,
    by decide +kernel, by decide +kernel, by decide +kernel, by decide +kernel⟩

end ThrowingRun

end Overlay
