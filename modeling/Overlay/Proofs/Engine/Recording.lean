import Mathlib.Data.Prod.Basic
import Overlay.Proofs.Engine.Readable
import Overlay.Proofs.Engine.Routing
import Overlay.Proofs.Heap.Nested

/-!
# What is stored under types with properties

Setting a property leaves no model in its field if the type of the property has properties and wraps
plainly, whatever value is handed in.  The same holds of what arrays of such values hold, however
deep they are nested.  There it takes more: an element may be reached again while other elements are
stored, by arrays that are shared, so what was stored must outlast what is stored after it.

* `Engine.replaceItems_below` : the elements of an array, one after the other;
* `Engine.set_stores_records` : **only records and nothing are stored under such a type**.

An array that holds itself has no text (`Heap.Printable`), and is left out, because `Heap.text` cuts
the text of what it is in short.  Where arrays of instances are declared it cannot be stored: as
deep as the instances are declared, an array is met, which is refused (`Engine.knot`).
-/

namespace Overlay

namespace Heap

open Relation

variable {s : Schema} {h h' h'' : Heap} {v w u : Value} {a : ArrayId} {i k n : Nat}

/-! ### Values whose text ends -/

/-- The values whose texts are part of the text of a value. -/
def printed (h : Heap) : Value → List Value
  | .array a => h.items a
  | .model m => [h.data m]
  | _ => []

/-- The text of the first value is part of the text of the second. -/
def PartOf (h : Heap) (w v : Value) : Prop := w ∈ h.printed v

/-- The text of the value ends: it does not hold itself through arrays and models. -/
def Printable (h : Heap) (v : Value) : Prop := Acc h.PartOf v

theorem Printable.part (ends : h.Printable v) (hw : h.PartOf w v) : h.Printable w := ends.inv hw

theorem Printable.scalar (hv : v.isScalar = true) : h.Printable v :=
  .intro v fun w hw => by cases v <;> first | cases hv; done | cases hw

theorem Nested.printable (nested : h.Nested n v) : h.Printable v := by
  induction n generalizing v with
  | zero => exact nested.elim
  | succ n ih =>
    refine .intro v fun w hw => ih (nested w ?_)
    cases v with
    | array a => exact hw
    | model m => exact hw
    | _ => cases hw

theorem Printable.not_part (ends : h.Printable v) (hw : h.PartOf w v) :
    ¬ ReflTransGen h.PartOf v w := by
  intro path
  have round : TransGen h.PartOf v v := .tail' path hw
  replace ends : Acc (TransGen h.PartOf) v := Acc.transGen ends
  clear path hw
  induction ends with
  | intro v _ ih => exact ih v round round

/-! ### Elements that yield others -/

/-- Every element is something that the element before yields. -/
def Replaced (h h' : Heap) : Prop := ∀ a i, h.Yields (h.item a i) (h'.item a i)

theorem holds_item (closed : h.Closed) (a : ArrayId) (i : Nat) : h.Holds (h.item a i) := by
  by_cases there : h.Holds (.array a)
  · exact closed.sealed.item there i
  · have none : h.item a i = .undefined := by
      rw [item, items, Array.getElem?_eq_none (Nat.le_of_not_lt there)]
      rfl
    rw [none]
    trivial

namespace Replaced

theorem refl (h : Heap) : h.Replaced h := fun _ _ => .same _

theorem trans (first : h.Replaced h') (second : h'.Replaced h'') (grows : h.Grows h')
    (closed : h.Closed) : h.Replaced h'' := fun a i => by
  have there := (first a i).holds closed (holds_item closed a i)
  exact (first a i).trans ((second a i).of_grows grows closed there)

theorem setItem (replaced : h.Replaced h') (yields : h.Yields (h.item a i) w) :
    h.Replaced (h'.setItem a i w) := by
  intro b j
  rw [item_setItem]
  split
  · rename_i same
    obtain ⟨rfl, rfl, -⟩ := same
    exact yields
  · exact replaced b j

/-- What an array holds when elements have been replaced is nothing or what an element yields. -/
theorem mem_items (replaced : h.Replaced h') (hw : w ∈ h'.items a) :
    w.isNothing = true ∨ ∃ v ∈ h.items a, h.Yields v w := by
  obtain ⟨i, rfl⟩ := exists_item hw
  have yields := replaced a i
  rcases Nat.lt_or_ge i (h.items a).length with hi | hi
  · exact Or.inr ⟨_, item_mem hi, yields⟩
  · rw [item_of_length_le hi] at yields
    exact Or.inl (yields.of_isNothing rfl)

end Replaced

/-- A value whose text ends yields values whose texts still end when elements have been replaced. -/
theorem Printable.replaced (ends : h.Printable v) (grows : h.Grows h') (replaced : h.Replaced h')
    (closed : h.Closed) (hv : h.Holds v) (yields : h.Yields v w) : h'.Printable w := by
  induction ends generalizing w with
  | intro v _ ih =>
    cases yields with
    | void => exact .scalar rfl
    | scalar _ _ hw => exact .scalar hw
    | @data m _ inside =>
      exact ih (h.data m) List.mem_cons_self (closed.sealed.data hv) inside
    | same =>
      refine .intro v fun y hy => ?_
      cases v with
      | array a =>
        rcases replaced.mem_items hy with nothing | ⟨x, hx, yields⟩
        · exact Printable.scalar (by cases y <;> first | rfl | cases nothing)
        · exact ih x hx (closed _ hv x hx) yields
      | model m =>
        rw [List.mem_singleton.1 hy, grows.data_eq hv]
        exact ih (h.data m) List.mem_cons_self (closed.sealed.data hv) (.same _)
      | _ => cases hy

/-! ### Records below arrays -/

/-- The value is nothing or, so many arrays deep, a record. -/
def RecordsBelow (h : Heap) : Nat → Value → Prop
  | 0, v => v.isNothing = true ∨ v.isRecord = true
  | k + 1, v => v.isNothing = true ∨ ∃ a, v = .array a ∧ ∀ w ∈ h.items a, h.RecordsBelow k w

namespace RecordsBelow

theorem nothing (hv : v.isNothing = true) : h.RecordsBelow k v := by
  cases k <;> exact Or.inl hv

theorem replaced (below : h.RecordsBelow k v) (all : h.Replaced h') (yields : h.Yields v w) :
    h'.RecordsBelow k w := by
  induction k generalizing v w with
  | zero =>
    rcases below with hv | hv
    · exact Or.inl (yields.of_isNothing hv)
    · rcases yields.of_container (Or.inl hv) with rfl | rfl
      · exact Or.inr hv
      · exact Or.inl rfl
  | succ k ih =>
    rcases below with hv | ⟨a, rfl, inside⟩
    · exact Or.inl (yields.of_isNothing hv)
    · rcases yields.of_container (Or.inr rfl) with rfl | rfl
      · refine Or.inr ⟨a, rfl, fun x hx => ?_⟩
        rcases all.mem_items hx with none | ⟨y, hy, yields⟩
        · exact nothing none
        · exact ih (inside y hy) yields
      · exact Or.inl rfl

theorem of_items (below : h.RecordsBelow k v) (same : ∀ a, h'.items a = h.items a) :
    h'.RecordsBelow k v := by
  induction k generalizing v with
  | zero => exact below
  | succ k ih =>
    refine below.imp_right fun ⟨a, ha, inside⟩ => ⟨a, ha, fun w hw => ih (inside w ?_)⟩
    rwa [same] at hw

theorem setItem (below : h.RecordsBelow k v)
    (apart : ¬ ReflTransGen (h.setItem a i u).PartOf (.array a) v) :
    (h.setItem a i u).RecordsBelow k v := by
  induction k generalizing v with
  | zero => exact below
  | succ k ih =>
    rcases below with hv | ⟨b, rfl, inside⟩
    · exact Or.inl hv
    · have same : (h.setItem a i u).items b = h.items b := by
        rw [items_setItem, if_neg fun e => apart (by rw [e])]
      refine Or.inr ⟨b, rfl, fun x hx => ih (inside x (same ▸ hx)) fun path => apart ?_⟩
      exact path.tail hx

end RecordsBelow

end Heap

/-- The property is declared with arrays, so many deep, of instances of a model type. -/
def Property.ArraysOf (p : Property) (k : Nat) (t : TypeId) : Prop :=
  List.replicate k (.builtin .array) ++ [.model t] <+: p.type :: p.elements

theorem Property.ArraysOf.element {p : Property} {k : Nat} {t : TypeId}
    (arrays : p.ArraysOf (k + 1) t) :
    p.type = .builtin .array ∧ ∃ e, p.elementProperty? = some e ∧ e.ArraysOf k t := by
  unfold ArraysOf at arrays
  rw [List.replicate_succ, List.cons_append, List.cons_prefix_cons] at arrays
  obtain ⟨type, arrays⟩ := arrays
  refine ⟨type.symm, ?_⟩
  unfold elementProperty?
  rcases he : p.elements with _ | ⟨u, us⟩
  · rw [he] at arrays
    simp at arrays
  · rw [he] at arrays
    exact ⟨_, rfl, arrays⟩

namespace Engine

open Heap Relation

/-- What is followed where elements are replaced. -/
def Routing.replacing (s : Schema) {start : Heap} (closed : start.Closed) : Routing s where
  held := []
  Keeps h := start.Grows h ∧ start.Replaced h
  At h _ v := h.Holds v
  there _ hv := hv
  grows g hv := hv.grows g
  scalar _ hw := holds_of_isScalar _ hw
  data closed _ hm := closed.sealed.data hm
  element i closed _ ha _ := closed.sealed.item ha i
  enter _ hr _ _ := hr
  entry {_ r _ _ _ x} closed _ hr _ _ hx :=
    have there := closed (.record r) hr x (List.mem_map.2 ⟨_, hx, rfl⟩)
    ⟨there, there⟩
  insert keeps _ := ⟨keeps.1.trans (grows_insert ..), keeps.2⟩
  setItem {_ _ _ _ a i _} _ keeps keeps' _ _ _ yields := by
    have old := keeps.2 a i
    have there := old.holds closed (holds_item closed a i)
    exact ⟨keeps'.1.trans (grows_setItem ..),
      keeps'.2.setItem (old.trans (yields.of_grows keeps.1 closed there))⟩
  release keeps _ _ _ _ _ := ⟨keeps.1.trans (grows_setWrapper ..), keeps.2⟩
  attach keeps _ _ _ _ := ⟨keeps.1.trans (grows_setWrapper ..), keeps.2⟩
  addModel t keeps _ _ := ⟨keeps.1.trans (extends_addModel _ t _).grows, keeps.2⟩

variable {s : Schema} {c : Context} {st st' st₁ st₂ : State} {p q : Property} {t : TypeId}
  {v w u : Value} {a : ArrayId} {depth k : Nat} {m : ModelId}

/-- Storing an element replaces elements only by what they yield. -/
theorem stored_replaced (hc : c.schema = s) (sound : st.heap.Sound (v :: (c.held ++ s.heldValues)))
    (free : s.FreeSlot p.slot) (h : stored (Engine.perform depth) p v c st = (.ok w, st')) :
    st.heap.Replaced st'.heap ∧ st.heap.Yields v w := by
  have follows := Routing.stored_follows (R := .replacing s sound.closed)
    (Routing.perform_served _ depth) hc (p := p) (v := v)
    ⟨sound.closed, ⟨.refl _, .refl _⟩, fun _ hw => absurd hw List.not_mem_nil,
      fun _ hw => absurd hw List.not_mem_nil⟩
    free (sound.there v List.mem_cons_self)
  rw [h] at follows
  exact ⟨follows.kept.keeps.2, follows.post w rfl⟩

/-! ### Records -/

/-- What a value comes to under a type with properties that wraps plainly. -/
theorem settled_record (plain : c.schema.WrapsPlainly t)
    (structured : (c.schema.type t).isStructured = true) (type : p.type = .model t)
    (inherits : c.schema.Inherits) (shaped : st.heap.Shaped c.schema) (closed : st.heap.Closed)
    (hv : st.heap.Holds v) (adapted : adapt (Engine.perform depth) p v c st = (.ok u, st₁))
    (same : st₂.heap = st₁.heap)
    (settled : settle (Engine.perform depth) p u c st₂ = (.ok w, st')) :
    w.isNothing = true ∨ w.isRecord = true := by
  have readable := settled_readable type plain inherits shaped closed hv
    (fun bare => absurd structured (by simp [bare])) adapted same settled
  have wraps : (c.schema.type t).wraps = true := by
    rw [ModelType.wraps, plain.wrap]
    rfl
  exact (readable t type wraps).imp_right fun shape => shape.2.2 structured

/-! ### Arrays of records -/

theorem slot_items? (type : p.type = .builtin .array) (he : p.elementProperty? = some q) :
    p.slot.items? = some q.slot := by
  rw [Slot.items?, show p.slot.type = .builtin .array from type, p.slot_element?, he]
  rfl

/-- What an array property makes of a value: nothing, or an array whose elements are replaced. -/
theorem adapt_array (type : p.type = .builtin .array) (hand : st.options.property = some p)
    (he : p.elementProperty? = some q) (h : adapt (Engine.perform depth) p v c st = (.ok u, st')) :
    u.isNothing = true ∨ ∃ d a, v = .array a ∧ u = .array a ∧
      replaceItems (stored (Engine.perform d) q) a 0 (st.heap.items a).length
        { c with held := [.array a] ++ c.held } st = (.ok (), st') := by
  replace h : Engine.perform depth (.coerce (.builtin .array) v) c st = (.ok u, st') := by
    unfold adapt at h
    rw [type] at h
    split at h
    · rw [bind_run] at h
      dsimp only [heap] at h
      rw [bind_run] at h
      dsimp only [schema] at h
      rw [Schema.fits_model_builtin, if_neg Bool.false_ne_true] at h
      exact h
    · exact h
  obtain ⟨d, coerced⟩ : ∃ d, coerceArray (stored (Engine.perform d)) v c st = (.ok u, st') := by
    cases depth with
    | zero => cases h
    | succ d => exact ⟨d, h⟩
  unfold coerceArray at coerced
  split at coerced
  · cases coerced
    exact Or.inl rfl
  · cases coerced
    exact Or.inl rfl
  · rename_i a
    rw [bind_run] at coerced
    dsimp only [options] at coerced
    rw [hand, Option.bind_some, he] at coerced
    dsimp only at coerced
    rw [bind_run] at coerced
    dsimp only [heap] at coerced
    obtain ⟨⟨⟩, st₁, replaced, last⟩ := bind_ok coerced
    cases last
    exact Or.inr ⟨d, a, rfl, rfl, replaced⟩
  · rw [invalid_ok coerced]
    exact Or.inl rfl

/-- Where the elements of an array are stored one after the other, each has records below it in the
end: what is stored after it only takes away, and the array itself is no part of it. -/
theorem replaceItems_below (hc : c.schema = s)
    (each : ∀ {st st' : State} {v w : Value}, st.heap.Sound (v :: (c.held ++ s.heldValues)) →
      st.heap.Shaped s → st.heap.Printable v →
        stored (Engine.perform depth) q v c st = (.ok w, st') → st'.heap.RecordsBelow k w)
    (free : s.FreeSlot q.slot) (sound : st.heap.Sound (.array a :: (c.held ++ s.heldValues)))
    (shaped : st.heap.Shaped s) (ends : st.heap.Printable (.array a)) (i count : Nat)
    (h : replaceItems (stored (Engine.perform depth) q) a i count c st = (.ok (), st')) :
    st.heap.Grows st'.heap ∧ st.heap.Replaced st'.heap ∧
      ∀ j, i ≤ j → j < i + count → st'.heap.RecordsBelow k (st'.heap.item a j) := by
  -- on the number of elements left; storing one takes steps, so what is assumed holds afterwards
  induction count generalizing i st with
  | zero =>
    cases h
    exact ⟨.refl _, .refl _, fun j _ _ => by omega⟩
  | succ count ih =>
    let v := st.heap.item a i
    unfold replaceItems at h
    rw [bind_run] at h
    dsimp only [heap] at h
    obtain ⟨w, st₁, hw, h⟩ := bind_ok h
    obtain ⟨⟨⟩, st₂, h₂, h⟩ := bind_ok h
    cases h₂
    have closed := sound.closed
    have hv : st.heap.Sound (v :: (c.held ++ s.heldValues)) := ⟨closed, fun u hu =>
      (List.mem_cons.1 hu).elim (fun e => e ▸ holds_item closed a i) fun hu =>
        sound.there u (List.mem_cons_of_mem _ hu)⟩
    obtain ⟨all, yields⟩ := stored_replaced hc hv free hw
    obtain ⟨steps, there⟩ :=
      (stored_steady (perform_steady s depth) q v).steps True c st hc fun _ => hv
    rw [hw] at steps there
    let h₂ := st₁.heap.setItem a i w
    have step : Step s True st₁.heap h₂ :=
      .setItem a i fun _ => there w rfl w List.mem_cons_self trivial
    have grows : st.heap.Grows h₂ := (Steps.grows steps).trans step.grows
    have replaced : st.heap.Replaced h₂ := all.setItem yields
    have ends₂ : h₂.Printable (.array a) :=
      ends.replaced grows replaced closed (sound.there _ List.mem_cons_self) (.same _)
    let st₂ : State := { st₁ with heap := h₂ }
    have sound₂ : st₂.heap.Sound (.array a :: (c.held ++ s.heldValues)) :=
      sound.steps (steps.tail step) trivial
    have shaped₂ : st₂.heap.Shaped s := step.shaped (Steps.shaped steps shaped)
    obtain ⟨growsRest, rest, later⟩ := ih sound₂ shaped₂ ends₂ (i + 1) h
    refine ⟨grows.trans growsRest, replaced.trans rest grows closed, fun j hij hj => ?_⟩
    rcases Nat.lt_or_eq_of_le hij with hij | rfl
    · exact later j hij (by omega)
    · have yields := rest a i
      have own : h₂.item a i = if i < (st₁.heap.items a).length then w else st₁.heap.item a i := by
        simp only [h₂, item_setItem, true_and]
      rcases Nat.lt_or_ge i (st₁.heap.items a).length with hi | hi
      · rw [own, if_pos hi] at yields
        -- the array can be printed, so an element of it does not contain the array
        have part : h₂.PartOf w (.array a) := by
          have mem : h₂.item a i ∈ h₂.items a := item_mem (by simpa [h₂, items_setItem] using hi)
          rwa [own, if_pos hi] at mem
        have below : st₁.heap.RecordsBelow k w := by
          refine each hv shaped ?_ hw
          rcases Nat.lt_or_ge i (st.heap.items a).length with hi | hi
          · exact ends.part (item_mem hi)
          · exact .scalar (by simp only [v, item_of_length_le hi]; rfl)
        exact (below.setItem (ends₂.not_part part)).replaced rest yields
      · rw [own, if_neg (Nat.not_lt.2 hi), item_of_length_le hi] at yields
        exact .nothing (yields.of_isNothing rfl)

theorem settled_below (hc : c.schema = s) (inherits : s.Inherits) (plain : s.WrapsPlainly t)
    (structured : (s.type t).isStructured = true) (arrays : p.ArraysOf k t)
    (free : s.FreeSlot p.slot) (sound : st.heap.Sound (v :: (c.held ++ s.heldValues)))
    (shaped : st.heap.Shaped s) (ends : st.heap.Printable v) (hand : st.options.property = some p)
    (adapted : adapt (Engine.perform depth) p v c st = (.ok u, st₁)) (same : st₂.heap = st₁.heap)
    (settled : settle (Engine.perform depth) p u c st₂ = (.ok w, st')) :
    st'.heap.RecordsBelow k w := by
  induction k generalizing p v u w st st₁ st₂ st' c depth with
  | zero =>
    subst hc
    have type : p.type = .model t := (List.cons_prefix_cons.1 arrays).1.symm
    exact settled_record plain structured type inherits shaped sound.closed
      (sound.there v List.mem_cons_self) adapted same settled
  | succ k ih =>
    obtain ⟨type, e, he, arrays⟩ := arrays.element
    rw [settle_builtin type] at settled
    cases settled
    rw [same]
    rcases adapt_array type hand he adapted with nothing | ⟨d, a, rfl, rfl, replaced⟩
    · exact .nothing nothing
    · let c' : Context := { c with held := [.array a] ++ c.held }
      have free := free.element (slot_items? type he)
      have arrayed : st.heap.Sound (.array a :: (c'.held ++ s.heldValues)) :=
        sound.mono fun w hw => by simpa [c'] using hw
      obtain ⟨-, rest, below⟩ := replaceItems_below (c := c') (k := k) hc
        (fun {st₃ st₄ x y} sound shaped ends h => by
          obtain ⟨st₅, h, heap⟩ := concerning_ok h
          obtain ⟨u, st₆, adapted, settled⟩ := bind_ok h
          rw [heap]
          let st₀ : State := { st₃ with options := { st₃.options with property := some e } }
          have sound : st₀.heap.Sound (x :: (c'.held ++ s.heldValues)) := sound
          exact ih (c := c') hc arrays free sound shaped ends rfl adapted rfl settled)
        free arrayed shaped ends 0 _ replaced
      refine Or.inr ⟨a, rfl, fun w hw => ?_⟩
      obtain ⟨i, rfl⟩ := exists_item hw
      rcases Nat.lt_or_ge i (st.heap.items a).length with hi | hi
      · exact below i (Nat.zero_le _) (by omega)
      · have yields := rest a i
        rw [item_of_length_le hi] at yields
        exact .nothing (yields.of_isNothing rfl)

/-- **Only records and nothing are stored under a type with properties.**  Let the type wrap plainly
and a value be set, whatever it is, in any heap that operations lead to and with any options.

If the property is declared with the type, its field then holds nothing or a record, whatever hooks
there are besides.  If it is declared with arrays of the type, to any depth, and all types involved
are free of hooks, the field holds nothing or arrays, to this depth, of nothing and records.
This is for values that have a text, those that do not hold themselves through arrays and models. -/
theorem set_stores_records (hs : s.Assembled) (hc : c.schema = s) (reached : st.heap.Reached s)
    (there : ∀ w ∈ v :: .model m :: (c.held ++ s.heldValues), st.heap.Holds w)
    (setter : p.setter = none) (plain : s.WrapsPlainly t)
    (structured : (s.type t).isStructured = true)
    (h : setProperty m p v c st = (.ok (), st')) :
    (p.type = .model t →
      (fieldOf st'.heap m p).isNothing = true ∨ (fieldOf st'.heap m p).isRecord = true) ∧
    ∀ k, p.ArraysOf k t → s.FreeSlot p.slot → st.heap.Printable v →
      st'.heap.RecordsBelow k (fieldOf st'.heap m p) := by
  obtain ⟨d, -, run⟩ := setProperty_wrote setter m v c st
  rw [run] at h
  obtain ⟨w, st₁, hw, field, items⟩ := fieldOf_wrote h
  let c' : Context := { c with held := [.model m] ++ c.held }
  obtain ⟨u, st₂, adapted, settled⟩ := bind_ok hw
  obtain ⟨st₃, adapted, same⟩ := concerning_ok adapted
  obtain ⟨st₄, settled, last⟩ := concerning_ok settled
  let st₀ : State := { st with options := { st.options with property := some p } }
  let st₂' : State := { st₂ with options := { st₂.options with property := some p } }
  have shaped : st₀.heap.Shaped s := reached.shaped
  have sound : st₀.heap.Sound (v :: (c'.held ++ s.heldValues)) :=
    ⟨reached.closed, fun w hw => there w (by simpa [c'] using hw)⟩
  replace same : st₂'.heap = st₃.heap := same
  constructor
  · intro type
    subst hc
    have stored := settled_record (c := c') ⟨plain.wrap, plain.coerce⟩ structured type hs.inherits
      shaped sound.closed (sound.there v List.mem_cons_self) adapted same settled
    rcases field with e | e
    · rw [e]
      exact Or.inl rfl
    · rwa [e]
  · intro k arrays free ends
    have stored := settled_below (c := c') hc hs.inherits plain structured arrays free sound shaped
      ends rfl adapted same settled
    rcases field with e | e
    · rw [e]
      exact .nothing rfl
    · rw [e]
      exact RecordsBelow.of_items stored fun a => by rw [items, last]

/-! ### A book of pages -/

/-- What declares a type with a number. -/
def numbered (name : String) : Extension :=
  { Extension.empty with name := some name, properties := [("n", .marker .number)] }

/-- What declares a book with a title page and other pages. -/
def books : Extension :=
  { Extension.empty with
    name := some "Book",
    properties := [("title", .type (.model ⟨1⟩)), ("pages", .array [.type (.model ⟨1⟩)])] }

/-- The title page of a book. -/
def titlePage : Property := ⟨"title", "title", .model ⟨1⟩, [], none, none, true⟩

/-- The other pages of a book. -/
def otherPages : Property := ⟨"pages", "pages", .builtin .array, [.model ⟨1⟩], none, none, true⟩

/-- The root, pages, slips and books. -/
def bookSchema : Schema :=
  let number : Property := ⟨"n", "n", .builtin .number, [], none, none, true⟩
  let s := (Schema.initial.addModel (.extended .root .root (numbered "Page") [number])).2
  let s := (s.addModel (.extended .root .root (numbered "Slip") [number])).2
  (s.addModel (.extended .root .root books [titlePage, otherPages])).2

theorem bookSchema_built : bookSchema.Built :=
  ((Schema.Built.initial.extend .root (numbered "Page") (by decide) ⟨rfl, nofun, rfl, rfl⟩ rfl
    (by decide)).extend .root (numbered "Slip") (by decide) ⟨rfl, nofun, rfl, rfl⟩ rfl
      (by decide)).extend .root books (by decide) ⟨rfl, nofun, rfl, rfl⟩ rfl (by decide)

theorem bookSchema_ruleFree : ∀ t, (bookSchema.type t).RuleFree :=
  bookSchema.ruleFree_of_listed (by decide +kernel)

/-- Makes a model of a type around a new record and attaches it. -/
def laidOut (t : TypeId) (h : Heap) : Heap :=
  let h₁ := (h.addRecord .empty).2
  (h₁.addModel t (.record ⟨h.records.size⟩)).2.setWrapper ⟨h.records.size⟩ (some ⟨h.models.size⟩)

theorem laidOut_steps (t : TypeId) (h : Heap)
    (structured : (bookSchema.type t).isStructured = true) :
    h.Steps bookSchema True (laidOut t h) := by
  have there : (h.addRecord .empty).2.Holds (.record ⟨h.records.size⟩) :=
    Nat.lt_of_lt_of_eq (Nat.lt_succ_self _) (Array.size_push _).symm
  have record : Step bookSchema True h (h.addRecord .empty).2 := .addRecord fun _ hv => nomatch hv
  have model : Step bookSchema True (h.addRecord .empty).2
      ((h.addRecord .empty).2.addModel t (.record ⟨h.records.size⟩)).2 :=
    .addModel t (fun _ => there) fun _ => rfl
  refine ((Relation.ReflTransGen.single record).tail model).tail (.attach ?_ ?_ ?_)
  · exact index_addModel_lt ..
  · exact data_addModel ..
  · rw [← structured]
    congr 2
    exact type_addModel ..

/-- A slip, a book, a loose page with a text for its number, and a stack of all kinds of things. -/
def desk : Heap :=
  let h := laidOut ⟨3⟩ (laidOut ⟨2⟩ .empty)
  let h := (h.recordOf [("n", .string "5")]).2
  (h.addArray [.record ⟨2⟩, .model ⟨0⟩, .record ⟨2⟩, .string "torn", .null]).2

theorem desk_reached : desk.Reached bookSchema := by
  refine (((laidOut_steps ⟨2⟩ .empty (by decide +kernel)).trans
    (laidOut_steps ⟨3⟩ _ (by decide +kernel))).tail (.addRecord ?_)).tail (.addArray ?_)
  · decide +kernel
  · decide +kernel

/-- The slip, the book and the stack are in use. -/
def atDesk : Context := ⟨bookSchema, [.model ⟨0⟩, .model ⟨1⟩, .array ⟨0⟩]⟩

/-- The slip becomes the title page, in collecting mode. -/
def setTitle : Except Fault Unit × State :=
  setProperty ⟨1⟩ titlePage (.model ⟨0⟩) atDesk ⟨desk, .collecting [], []⟩

/-- The things in the stack become the other pages. -/
def setPages : Except Fault Unit × State :=
  setProperty ⟨1⟩ otherPages (.array ⟨0⟩) atDesk ⟨desk, .collecting [], []⟩

theorem set_stores_records_book :
    (setTitle.1 = .ok () ∧ ((fieldOf setTitle.2.heap ⟨1⟩ titlePage).isNothing = true ∨
        (fieldOf setTitle.2.heap ⟨1⟩ titlePage).isRecord = true)) ∧
      setPages.1 = .ok () ∧
        setPages.2.heap.RecordsBelow 1 (fieldOf setPages.2.heap ⟨1⟩ otherPages) := by
  have title : setTitle = (.ok (), setTitle.2) := Prod.fst_eq_iff.1 (by decide +kernel)
  have pages : setPages = (.ok (), setPages.2) := Prod.fst_eq_iff.1 (by decide +kernel)
  have arrays : otherPages.ArraysOf 1 ⟨1⟩ := List.prefix_rfl
  have free : bookSchema.FreeSlot otherPages.slot :=
    (bookSchema_built.freeProperty bookSchema_ruleFree (show otherPages.PlainBelow 2 by decide)
      (by decide)).slot
  have ends : desk.Printable (.array ⟨0⟩) := Nested.printable (n := 4) (by decide +kernel)
  let st : State := ⟨desk, .collecting [], []⟩
  have reached : st.heap.Reached bookSchema := desk_reached
  refine ⟨⟨congrArg Prod.fst title, ?_⟩, congrArg Prod.fst pages, ?_⟩
  · have there : ∀ w ∈ [.model ⟨0⟩, .model ⟨1⟩] ++ (atDesk.held ++ bookSchema.heldValues),
        desk.Holds w := by decide +kernel
    exact (set_stores_records (m := ⟨1⟩) (p := titlePage) (v := .model ⟨0⟩) (c := atDesk) (t := ⟨1⟩)
      bookSchema_built.assembled rfl reached there rfl ⟨rfl, rfl⟩ (by decide +kernel) title).1 rfl
  · have there : ∀ w ∈ [.array ⟨0⟩, .model ⟨1⟩] ++ (atDesk.held ++ bookSchema.heldValues),
        desk.Holds w := by decide +kernel
    exact (set_stores_records (m := ⟨1⟩) (p := otherPages) (v := .array ⟨0⟩) (c := atDesk) (t := ⟨1⟩)
      bookSchema_built.assembled rfl reached there rfl ⟨rfl, rfl⟩ (by decide +kernel) pages).2 1
        arrays free ends

/-- The scalar is gone, and of the slip its record is left. -/
example : setPages.2.heap.items ⟨0⟩ =
    [.record ⟨2⟩, .record ⟨0⟩, .record ⟨2⟩, .undefined, .null] := by decide +kernel

/-- A slip, a book, and an array that holds itself. -/
def knot : Heap := ((laidOut ⟨3⟩ (laidOut ⟨2⟩ .empty)).addArray [.array ⟨0⟩]).2

-- its element is an array, so it is refused in either mode
example : ∀ o ∈ [Options.throwing, .collecting []],
    (setProperty ⟨1⟩ otherPages (.array ⟨0⟩) atDesk ⟨knot, o, []⟩).1 =
      .error (.error .wrappedArray) := by decide +kernel

end Engine

end Overlay
