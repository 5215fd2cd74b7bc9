import Overlay.Proofs.Heap.Shows
import Overlay.Proofs.Plain.Storing

/-!
# Values laid out in slots

What a value is made of may go through slots of its own: the elements of an array through declared
ones, and the fields of a record through the properties of its type.  `Heap.Laid` follows the slots
down and lists the *own* cells of the values on the way; the parts that no slot is declared for may
be made of *shared* cells as well.

* `Heap.Laid.of_changesOnly` : changes elsewhere make no difference;
* `Heap.Offered` : the own cells are all different and have no models attached, so that operations
  can go through them one after the other;
* `Heap.Offered.by_key` : the fields of a record are offered one by one;
* `Heap.Offered.of_trees` : fresh plain trees are offered in any slots.
-/

namespace Overlay

namespace Heap

variable {s : Schema} {h h' : Heap} {F : Value → Prop} {q : Option Slot} {qs : List (Option Slot)}
  {v : Value} {vs : List Value} {x : Tree} {xs : List Tree} {T T' cells : List Value}

/-- The values show these trees in these slots, by shared cells of this kind and by own cells, which
are listed from the top down. -/
inductive Laid (s : Schema) (h : Heap) (F : Value → Prop) :
    List (Option Slot) → List Value → List Tree → List Value → Prop
  | nil : Laid s h F [] [] [] []
  /-- No part of the value goes through a slot of its own. -/
  | still {q : Option Slot} {v : Value} {x : Tree} {qs : List (Option Slot)} {vs : List Value}
      {xs : List Tree} {T T' : List Value} (still : x.Still s q)
      (shown : h.Shows (fun u => F u ∨ u ∈ T) [v] [x]) (rest : Laid s h F qs vs xs T') :
      Laid s h F (q :: qs) (v :: vs) (x :: xs) (T ++ T')
  /-- An array under declared elements. -/
  | array {q e : Slot} {a : ArrayId} {ys : List Tree} {qs : List (Option Slot)} {vs : List Value}
      {xs : List Tree} {T T' : List Value} (items : q.items? = some e)
      (inside : Laid s h F ((h.items a).map fun _ => some e) (h.items a) ys T)
      (rest : Laid s h F qs vs xs T') :
      Laid s h F (some q :: qs) (.array a :: vs) (.array ys :: xs) (.array a :: (T ++ T'))
  /-- A record under a type that wraps. -/
  | record {q : Slot} {t : TypeId} {r : RecordId} {es : Entries} {qs : List (Option Slot)}
      {vs : List Value} {xs : List Tree} {T T' : List Value} (form : q.form? s = some t)
      (keys : (h.fields r).keys = es.keys)
      (inside : Laid s h F ((h.fields r).keys.map (s.type t).slot?) (h.fields r).values
        (es.map Prod.snd) T)
      (rest : Laid s h F qs vs xs T') :
      Laid s h F (some q :: qs) (.record r :: vs) (.record es :: xs) (.record r :: (T ++ T'))

namespace Laid

theorem shows (l : Laid s h F qs vs xs T) : h.Shows (fun v => F v ∨ v ∈ T) vs xs := by
  have left : ∀ {v : Value} {T T' : List Value}, F v ∨ v ∈ T → F v ∨ v ∈ T ++ T' :=
    fun h => h.imp_right fun h => List.mem_append_left _ h
  have right : ∀ {v : Value} {T T' : List Value}, F v ∨ v ∈ T' → F v ∨ v ∈ T ++ T' :=
    fun h => h.imp_right fun h => List.mem_append_right _ h
  have below : ∀ {v u : Value} {T : List Value}, F v ∨ v ∈ T → F v ∨ v ∈ u :: T :=
    fun h => h.imp_right fun h => List.mem_cons_of_mem _ h
  induction l with
  | nil => exact .nil
  | still _ shown _ ih => exact (shown.mono fun _ => left).cons (ih.mono fun _ => right)
  | array _ _ _ ih₁ ih₂ =>
    exact .array (Or.inr List.mem_cons_self) (ih₁.mono fun _ h => below (left h))
      (ih₂.mono fun _ h => below (right h))
  | record _ keys _ _ ih₁ ih₂ =>
    exact .record (Or.inr List.mem_cons_self) keys (ih₁.mono fun _ h => below (left h))
      (ih₂.mono fun _ h => below (right h))

/-- Changes of other cells make no difference. -/
theorem of_changesOnly (l : Laid s h F qs vs xs T) (d : h.ChangesOnly h' cells)
    (shared : ∀ v, F v → h.Holds v ∧ v ∉ cells) (own : ∀ v ∈ T, h.Holds v ∧ v ∉ cells) :
    Laid s h' F qs vs xs T := by
  induction l with
  | nil => exact .nil
  | still idle shown _ ih =>
    refine .still idle (shown.of_changesOnly d fun v hv => ?_) (ih fun v hv => own v (by simp [hv]))
    exact hv.elim (shared v) fun hv => own v (List.mem_append_left _ hv)
  | @array q e a ys qs vs xs T T' items _ _ ih₁ ih₂ =>
    obtain ⟨held, untouched⟩ := own _ List.mem_cons_self
    refine .array items ?_ (ih₂ fun v hv => own v (by simp [hv]))
    rw [d.items a held untouched]
    exact ih₁ fun v hv => own v (by simp [hv])
  | @record q t r es qs vs xs T T' form keys _ _ ih₁ ih₂ =>
    obtain ⟨held, untouched⟩ := own _ List.mem_cons_self
    have same := d.fields r held untouched
    refine .record form (by rw [same]; exact keys) ?_ (ih₂ fun v hv => own v (by simp [hv]))
    rw [same]
    exact ih₁ fun v hv => own v (by simp [hv])

theorem split (l : Laid s h F (q :: qs) (v :: vs) (x :: xs) T) :
    ∃ T₁ T₂, T = T₁ ++ T₂ ∧ Laid s h F [q] [v] [x] T₁ ∧ Laid s h F qs vs xs T₂ := by
  cases l with
  | @still _ _ _ _ _ _ T T' idle shown rest =>
    exact ⟨T ++ [], T', by simp, .still idle shown .nil, rest⟩
  | @array q e a _ _ _ _ T T' items inside rest =>
    exact ⟨.array a :: (T ++ []), T', by simp, .array items inside .nil, rest⟩
  | @record q t r _ _ _ _ T T' form keys inside rest =>
    exact ⟨.record r :: (T ++ []), T', by simp, .record form keys inside .nil, rest⟩

theorem cons (first : Laid s h F [q] [v] [x] T) (rest : Laid s h F qs vs xs T') :
    Laid s h F (q :: qs) (v :: vs) (x :: xs) (T ++ T') := by
  cases first with
  | still idle shown others =>
    cases others
    rw [List.append_nil]
    exact .still idle shown rest
  | array items inside others =>
    cases others
    rw [List.append_nil, List.cons_append]
    exact .array items inside rest
  | record form keys inside others =>
    cases others
    rw [List.append_nil, List.cons_append]
    exact .record form keys inside rest

theorem leaf (plain : v.isScalar = true) : Laid s h F [q] [v] [.leaf v] [] := by
  refine .still (T := []) ?_ (.leaf plain .nil) .nil
  cases q <;> trivial

theorem of_array {q e : Slot} (l : Laid s h F [some q] [v] [.array xs] T)
    (items : q.items? = some e) : ∃ a T', v = .array a ∧ T = .array a :: T' ∧
      Laid s h F ((h.items a).map fun _ => some e) (h.items a) xs T' := by
  cases l with
  | still idle _ _ => cases items.symm.trans idle
  | array items' inside rest =>
    cases rest
    cases items.symm.trans items'
    exact ⟨_, _, rfl, by rw [List.append_nil], inside⟩

theorem of_record {q : Slot} {t : TypeId} {es : Entries}
    (l : Laid s h F [some q] [v] [.record es] T) (form : q.form? s = some t) :
    ∃ r T', v = .record r ∧ T = .record r :: T' ∧ (h.fields r).keys = es.keys ∧
      Laid s h F ((h.fields r).keys.map (s.type t).slot?) (h.fields r).values (es.map Prod.snd)
        T' := by
  cases l with
  | still idle _ _ => cases form.symm.trans idle
  | record form' keys inside rest =>
    cases rest
    cases form.symm.trans form'
    exact ⟨_, _, rfl, by rw [List.append_nil], keys, inside⟩

end Laid

/-! ### Trees on offer -/

/-- The values show trees in slots and nothing has gone through their own cells yet: these are all
different and have no models attached, and no shared cell has one either. -/
structure Offered (s : Schema) (h : Heap) (F : Value → Prop) (qs : List (Option Slot))
    (vs : List Value) (xs : List Tree) (T : List Value) : Prop where
  /-- They are laid out in the slots. -/
  laid : Laid s h F qs vs xs T
  /-- No own cell occurs twice. -/
  nodup : T.Nodup
  /-- The own cells are there. -/
  held : ∀ v ∈ T, h.Holds v
  /-- They have no models attached. -/
  free : ∀ r, .record r ∈ T → h.attached? r = none
  /-- The shared cells are others, and have none either. -/
  shared : ∀ v, F v → h.Holds v ∧ v ∉ T ∧ ∀ r, v = .record r → h.attached? r = none

namespace Offered

theorem holds_of (o : Offered s h F qs vs xs T) : ∀ v, F v ∨ v ∈ T → h.Holds v :=
  fun v hv => hv.elim (fun hF => (o.shared v hF).1) (o.held v)

theorem free_of (o : Offered s h F qs vs xs T) :
    ∀ r, F (.record r) ∨ .record r ∈ T → h.attached? r = none :=
  fun r hr => hr.elim (fun hF => (o.shared _ hF).2.2 r rfl) (o.free r)

theorem shows (o : Offered s h F qs vs xs T) : h.Shows (fun v => F v ∨ v ∈ T) vs xs :=
  o.laid.shows

theorem text_eq (o : Offered s h F [q] [v] [x] T) : h.text v = x.text :=
  o.shows.text_eq o.holds_of

theorem unattached {r : RecordId} (o : Offered s h F [q] [.record r] [x] T) :
    h.attached? r = none := by
  cases o.shows with
  | leaf plain _ => cases plain
  | record mem _ _ _ => exact o.free_of r mem

theorem not_model (o : Offered s h F [q] [v] [x] T) (m : ModelId) : v ≠ .model m := by
  intro e
  have := o.shows.not_model
  rw [e] at this
  cases this

/-- A part of the values has a part of the own cells. -/
theorem part {qs' : List (Option Slot)} {vs' : List Value} {xs' : List Tree}
    (o : Offered s h F qs vs xs T) (laid : Laid s h F qs' vs' xs' T') (sub : T'.Sublist T) :
    Offered s h F qs' vs' xs' T' where
  laid := laid
  nodup := o.nodup.sublist sub
  held := fun v hv => o.held v (sub.subset hv)
  free := fun r hr => o.free r (sub.subset hr)
  shared := fun v hv =>
    let ⟨held, out, free⟩ := o.shared v hv
    ⟨held, fun h => out (sub.subset h), free⟩

theorem split (o : Offered s h F (q :: qs) (v :: vs) (x :: xs) T) :
    ∃ T₁ T₂, T = T₁ ++ T₂ ∧ Offered s h F [q] [v] [x] T₁ ∧ Offered s h F qs vs xs T₂ ∧
      ∀ w ∈ T₂, w ∉ T₁ := by
  obtain ⟨T₁, T₂, rfl, l₁, l₂⟩ := o.laid.split
  obtain ⟨-, -, hd⟩ := List.nodup_append.1 o.nodup
  exact ⟨T₁, T₂, rfl, o.part l₁ (List.sublist_append_left _ _),
    o.part l₂ (List.sublist_append_right _ _), fun w hw hw' => hd w hw' w hw rfl⟩

theorem advance (o : Offered s h F qs vs xs T) (d : h.ChangesOnly h' cells)
    (shared : ∀ v, F v → v ∉ cells) (own : ∀ v ∈ T, v ∉ cells) :
    Offered s h' F qs vs xs T where
  laid := o.laid.of_changesOnly d (fun v hv => ⟨(o.shared v hv).1, shared v hv⟩)
    fun v hv => ⟨o.held v hv, own v hv⟩
  nodup := o.nodup
  held := fun v hv => (o.held v hv).grows d.grows
  free := fun r hr => (d.attached r (o.held _ hr) (own _ hr)).trans (o.free r hr)
  shared := fun v hv => by
    obtain ⟨held, out, free⟩ := o.shared v hv
    refine ⟨held.grows d.grows, out, fun r e => ?_⟩
    subst e
    exact (d.attached r held (shared _ hv)).trans (free r rfl)

theorem of_array {q e : Slot} (o : Offered s h F [some q] [v] [.array xs] T)
    (items : q.items? = some e) : ∃ a T', v = .array a ∧ T = .array a :: T' ∧ .array a ∉ T' ∧
      ¬ F (.array a) ∧ Offered s h F ((h.items a).map fun _ => some e) (h.items a) xs T' := by
  obtain ⟨a, T', rfl, rfl, inside⟩ := o.laid.of_array items
  exact ⟨a, T', rfl, rfl, (List.nodup_cons.1 o.nodup).1,
    fun hF => (o.shared _ hF).2.1 List.mem_cons_self, o.part inside (List.sublist_cons_self _ _)⟩

theorem of_record {q : Slot} {t : TypeId} {es : Entries}
    (o : Offered s h F [some q] [v] [.record es] T) (form : q.form? s = some t) :
    ∃ r T', v = .record r ∧ T = .record r :: T' ∧ .record r ∉ T' ∧ ¬ F (.record r) ∧
      (h.fields r).keys = es.keys ∧ Offered s h F ((h.fields r).keys.map (s.type t).slot?)
        (h.fields r).values (es.map Prod.snd) T' := by
  obtain ⟨r, T', rfl, rfl, keys, inside⟩ := o.laid.of_record form
  exact ⟨r, T', rfl, rfl, (List.nodup_cons.1 o.nodup).1,
    fun hF => (o.shared _ hF).2.1 List.mem_cons_self, keys,
    o.part inside (List.sublist_cons_self _ _)⟩

/-- What is offered entry by entry has own cells for each key. -/
theorem by_key {g : String → Option Slot} {fs : List (String × Value)} {es : Entries}
    (o : Offered s h F (fs.map fun e => g e.1) (fs.map Prod.snd) (es.map Prod.snd) T)
    (keys : fs.map Prod.fst = es.keys) (nodup : es.keys.Nodup) :
    ∃ cells : String → List Value,
      (∀ key v, (key, v) ∈ fs → Offered s h F [g key] [v] [es.get key] (cells key)) ∧
      (∀ key key', key ≠ key' → ∀ u ∈ cells key, u ∉ cells key') ∧
      ∀ key, ∀ u ∈ cells key, u ∈ T := by
  induction fs generalizing es T with
  | nil =>
    refine ⟨fun _ => [], fun _ _ hw => absurd hw List.not_mem_nil, fun _ _ _ _ hu => ?_,
      fun _ _ hu => ?_⟩ <;> exact absurd hu List.not_mem_nil
  | cons f fs ih =>
    obtain ⟨key, v⟩ := f
    obtain - | ⟨⟨key', x⟩, es⟩ := es
    · cases keys
    · obtain ⟨rfl, keys'⟩ : key = key' ∧ fs.map Prod.fst = Entries.keys es := List.cons.inj keys
      obtain ⟨fresh, nodup'⟩ : key ∉ Entries.keys es ∧ (Entries.keys es).Nodup :=
        List.nodup_cons.1 nodup
      obtain ⟨T₁, T₂, rfl, first, others, hd⟩ := o.split
      obtain ⟨cells, offered, apart, sub⟩ := ih others keys' nodup'
      refine ⟨fun k => if k = key then T₁ else cells k, fun k w hw => ?_, fun k k' hne u hu => ?_,
        fun k u hu => ?_⟩
      · dsimp only
        rw [Entries.get_cons]
        rcases List.mem_cons.1 hw with e | hw
        · cases e
          rw [if_pos rfl, if_pos rfl]
          exact first
        · have hk : k ≠ key := fun e => fresh (keys' ▸ e ▸ List.mem_map.2 ⟨_, hw, rfl⟩)
          rw [if_neg hk, if_neg hk]
          exact offered k w hw
      · dsimp only at hu ⊢
        split at hu
        · rw [if_neg fun e => hne (‹k = key›.trans e.symm)]
          exact fun hu' => hd u (sub k' u hu') hu
        · split
          · exact hd u (sub k u hu)
          · exact apart k k' hne u hu
      · dsimp only at hu
        split at hu
        · exact List.mem_append_left _ hu
        · exact List.mem_append_right _ (sub k u hu)

end Offered

/-! ### Fresh plain trees -/

theorem Trees.shows (t : h.Trees vs cells) : ∃ xs, h.Shows (· ∈ cells) vs xs := by
  induction t with
  | nil => exact ⟨[], .nil⟩
  | scalar plain _ ih =>
    obtain ⟨xs, sh⟩ := ih
    exact ⟨_, .leaf plain sh⟩
  | array _ _ ih₁ ih₂ =>
    obtain ⟨ys, sh₁⟩ := ih₁
    obtain ⟨xs, sh₂⟩ := ih₂
    exact ⟨_, .array List.mem_cons_self (sh₁.mono fun v hv => by simp [hv])
      (sh₂.mono fun v hv => by simp [hv])⟩
  | @record r vs _ _ _ _ _ ih₁ ih₂ =>
    obtain ⟨ys, sh₁⟩ := ih₁
    obtain ⟨xs, sh₂⟩ := ih₂
    obtain ⟨es, keys, rfl⟩ := Entries.exists_of_length_eq
      ((h.fields r).length_keys.trans sh₁.length_eq)
    exact ⟨.record es :: xs, .record List.mem_cons_self keys (sh₁.mono fun v hv => by simp [hv])
      (sh₂.mono fun v hv => by simp [hv])⟩

theorem Trees.laid_array {a : ArrayId} (inside : h.Trees (h.items a) cells)
    (parts : ∀ qs : List (Option Slot), qs.length = (h.items a).length →
      ∃ ys, Laid s h (fun _ => False) qs (h.items a) ys cells) (q : Option Slot) :
    ∃ x, Laid s h (fun _ => False) [q] [.array a] [x] (.array a :: cells) := by
  have still : (∀ ys, Tree.Still s q (.array ys)) →
      ∃ x, Laid s h (fun _ => False) [q] [.array a] [x] (.array a :: cells) := by
    intro idle
    obtain ⟨ys, sh⟩ := inside.shows
    refine ⟨.array ys, ?_⟩
    rw [← List.append_nil (.array a :: cells)]
    exact .still (idle ys) (.array (Or.inr List.mem_cons_self) (sh.mono fun v hv =>
      Or.inr (List.mem_cons_of_mem _ hv)) .nil) .nil
  rcases q with _ | q
  · exact still fun _ => trivial
  · cases hi : q.items? with
    | none => exact still fun _ => hi
    | some e =>
      obtain ⟨ys, inside⟩ := parts ((h.items a).map fun _ => some e) (List.length_map _)
      refine ⟨.array ys, ?_⟩
      rw [← List.append_nil cells]
      exact .array hi inside .nil

theorem Trees.laid_record {r : RecordId} (inside : h.Trees (h.fields r).values cells)
    (parts : ∀ qs : List (Option Slot), qs.length = (h.fields r).values.length →
      ∃ ys, Laid s h (fun _ => False) qs (h.fields r).values ys cells) (q : Option Slot) :
    ∃ x, Laid s h (fun _ => False) [q] [.record r] [x] (.record r :: cells) := by
  have lengths := (h.fields r).length_keys
  have still : (∀ es, Tree.Still s q (.record es)) →
      ∃ x, Laid s h (fun _ => False) [q] [.record r] [x] (.record r :: cells) := by
    intro idle
    obtain ⟨ys, sh⟩ := inside.shows
    obtain ⟨es, keys, rfl⟩ := Entries.exists_of_length_eq (lengths.trans sh.length_eq)
    refine ⟨.record es, ?_⟩
    rw [← List.append_nil (.record r :: cells)]
    exact .still (idle es) (.record (Or.inr List.mem_cons_self) keys (sh.mono fun v hv =>
      Or.inr (List.mem_cons_of_mem _ hv)) .nil) .nil
  rcases q with _ | q
  · exact still fun _ => trivial
  · cases hf : q.form? s with
    | none => exact still fun _ => hf
    | some t =>
      obtain ⟨ys, inside⟩ := parts ((h.fields r).keys.map (s.type t).slot?)
        ((List.length_map _).trans lengths)
      obtain ⟨es, keys, rfl⟩ := Entries.exists_of_length_eq
        (lengths.trans inside.shows.length_eq)
      refine ⟨.record es, ?_⟩
      rw [← List.append_nil cells]
      exact .record hf keys inside .nil

/-- All cells of plain trees are their own, whatever the slots. -/
theorem Trees.laid (s : Schema) (t : h.Trees vs cells) (qs : List (Option Slot))
    (length : qs.length = vs.length) : ∃ xs, Laid s h (fun _ => False) qs vs xs cells := by
  induction t generalizing qs with
  | nil =>
    obtain rfl : qs = [] := List.length_eq_zero_iff.1 length
    exact ⟨[], .nil⟩
  | @scalar v vs cells plain _ ih =>
    obtain - | ⟨q, qs⟩ := qs
    · cases length
    · obtain ⟨xs, rest⟩ := ih qs (Nat.succ.inj length)
      exact ⟨_, (Laid.leaf plain).cons rest⟩
  | array inside _ ih₁ ih₂ =>
    obtain - | ⟨q, qs⟩ := qs
    · cases length
    · obtain ⟨xs, rest⟩ := ih₂ qs (Nat.succ.inj length)
      obtain ⟨x, first⟩ := inside.laid_array ih₁ q
      exact ⟨x :: xs, first.cons rest⟩
  | record _ inside _ ih₁ ih₂ =>
    obtain - | ⟨q, qs⟩ := qs
    · cases length
    · obtain ⟨xs, rest⟩ := ih₂ qs (Nat.succ.inj length)
      obtain ⟨x, first⟩ := inside.laid_record ih₁ q
      exact ⟨x :: xs, first.cons rest⟩

theorem Trees.shows_one {v : Value} (t : h.Trees [v] cells) : ∃ x, h.Shows (· ∈ cells) [v] [x] := by
  obtain ⟨xs, sh⟩ := t.shows
  obtain ⟨x, rfl⟩ := List.length_eq_one_iff.1 sh.length_eq.symm
  exact ⟨x, sh⟩

theorem Trees.free (t : h.Trees vs cells) : ∀ r, .record r ∈ cells → h.attached? r = none := by
  induction t with
  | nil => exact nofun
  | scalar _ _ ih => exact ih
  | array _ _ ih₁ ih₂ =>
    intro r hr
    simp only [List.mem_cons, reduceCtorEq, false_or, List.mem_append] at hr
    exact hr.elim (ih₁ r) (ih₂ r)
  | record free _ _ ih₁ ih₂ =>
    intro r hr
    simp only [List.mem_cons, Value.record.injEq, List.mem_append] at hr
    rcases hr with rfl | hr | hr
    · exact free
    · exact ih₁ r hr
    · exact ih₂ r hr

/-- Fresh plain trees are on offer in any slots. -/
theorem Offered.of_trees (s : Schema) (t : h.Trees vs cells) (nodup : cells.Nodup)
    (held : ∀ v ∈ cells, h.Holds v) (qs : List (Option Slot)) (length : qs.length = vs.length) :
    ∃ xs, Offered s h (fun _ => False) qs vs xs cells := by
  obtain ⟨xs, laid⟩ := t.laid s qs length
  exact ⟨xs, laid, nodup, held, t.free, fun _ h => h.elim⟩

end Heap

end Overlay
