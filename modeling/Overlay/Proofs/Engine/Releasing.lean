import Overlay.Proofs.Engine.Identity
import Overlay.Proofs.Engine.Recording

/-!
# What wrapping takes from records

Before a model that is no instance of the type is wrapped, its record lets go of it, and this is not
undone if wrapping fails afterwards (`Engine.wrap_page_as_book`).  Nothing else takes a model in use
from a record.  `Engine.Comes` follows the values from what is wrapped along what the types declare,
in the heap before anything happens; it says which models are met with a type at all.

* `Engine.Comes` : where values come to;
* `Engine.LetsGo` : a record lets go of the model attached to it;
* `Engine.wrap_keeps_attached` : **all other records keep the models that are in use**, whether
  wrapping succeeds or not.
-/

namespace Overlay

namespace Engine

open Heap

/-! ### The ways of values -/

section Ways

variable (s : Schema) (held : List Value) (h : Heap) (t : TypeId) (v : Value)

/-- Where values come to when a value is wrapped by a type and these are in use. -/
inductive Comes : Spot → Value → Prop
  /-- The value comes to the type. -/
  | start : Comes (.slot (.alone (.model t))) v
  /-- A scalar may come of another one anywhere. -/
  | scalar {spot : Spot} {w : Value} (hw : w.isScalar = true) : Comes spot w
  /-- What a model is around comes where the model does. -/
  | data {spot : Spot} {m : ModelId} (hm : Comes spot (.model m)) : Comes spot (h.data m)
  /-- An element comes to the slot of elements. -/
  | element {q e : Slot} {a : ArrayId} (i : Nat) (ha : Comes (.slot q) (.array a))
      (he : q.items? = some e) : Comes (.slot e) (h.item a i)
  /-- A record without a model in use goes through the properties of its type. -/
  | enter {q : Slot} {r : RecordId} {u : TypeId} (hr : Comes (.slot q) (.record r))
      (form : q.form? s = some u) (unused : ∀ w, h.attached? r = some w → .model w ∉ held) :
      Comes (.inside u) (.record r)
  /-- So does a record that has let go of its model, which was no instance of a type that it came
  to. -/
  | reenter {q q' : Slot} {r : RecordId} {u u' : TypeId} {m : ModelId}
      (hr : Comes (.slot q) (.record r)) (form : q.form? s = some u)
      (hm : Comes (.slot q') (.model m)) (type : q'.type = .model u')
      (wraps : (s.type u').wraps = true) (other : s.derivesFrom (h.type m) u' = false)
      (data : h.data m = .record r) : Comes (.inside u) (.record r)
  /-- What a record holds is under its key. -/
  | stored {r : RecordId} {u : TypeId} (key : String) (hr : Comes (.inside u) (.record r)) :
      Comes (.field r key) ((h.fields r).get key)
  /-- What is under the key of a property comes to the slot of the property. -/
  | entry {r : RecordId} {u : TypeId} {key : String} {p : Property} {x : Value}
      (hr : Comes (.inside u) (.record r)) (unreserved : isReserved key = false)
      (hp : (s.type u).property? key = some p) (hx : Comes (.field r key) x) : Comes (.slot p.slot) x
  /-- And it may be moved to the storage key of the property. -/
  | moved {r : RecordId} {u : TypeId} {key : String} {p : Property} {x : Value}
      (hr : Comes (.inside u) (.record r)) (unreserved : isReserved key = false)
      (hp : (s.type u).property? key = some p) (hx : Comes (.field r key) x) :
      Comes (.field r p.storageKey) x

/-- A model of the record comes to a type that wraps and that it is no instance of. -/
def LetsGo (r : RecordId) : Prop :=
  ∃ q u m, Comes s held h t v (.slot q) (.model m) ∧ h.data m = .record r ∧ q.type = .model u ∧
    (s.type u).wraps = true ∧ s.derivesFrom (h.type m) u = false

end Ways

variable {s : Schema} {held : List Value} {h h' : Heap} {t u : TypeId} {v w x : Value}
  {spot : Spot} {q e : Slot} {r : RecordId} {a : ArrayId} {m : ModelId} {c : Context} {st : State}

namespace Comes

/-- Only what the value leads to comes anywhere. -/
theorem reachable (comes : Comes s held h t v spot w) : w.isScalar = true ∨ h.Reachable [v] w := by
  have child : ∀ {x y : Value}, x.isScalar = true ∨ h.Reachable [v] x → y ∈ h.children x →
      h.Reachable [v] y := by
    intro x y hx hy
    rcases hx with plain | reach
    · rw [h.children_of_isScalar plain] at hy
      cases hy
    · exact .child reach hy
  induction comes with
  | start => exact Or.inr (.root List.mem_cons_self)
  | scalar hw => exact Or.inl hw
  | data _ ih => exact Or.inr (child ih List.mem_cons_self)
  | @element q e a i _ _ ih =>
    rcases Nat.lt_or_ge i (h.items a).length with hi | hi
    · exact Or.inr (child ih (item_mem hi))
    · rw [item_of_length_le hi]
      exact Or.inl rfl
  | enter _ _ _ ih => exact ih
  | reenter _ _ _ _ _ _ _ ih => exact ih
  | @stored r u key _ ih =>
    rcases (h.fields r).get_cases key with hk | hk
    · exact Or.inr (child ih (List.mem_map.2 ⟨_, hk, rfl⟩))
    · rw [hk]
      exact Or.inl rfl
  | entry _ _ _ _ _ ih => exact ih
  | moved _ _ _ _ _ ih => exact ih

theorem holds (comes : Comes s held h t v spot w) (closed : h.Closed) (hv : h.Holds v) :
    h.Holds w := by
  have there : ∀ {w}, h.Reachable [v] w → h.Holds w := by
    intro w reach
    induction reach with
    | root mem => exact List.mem_singleton.1 mem ▸ hv
    | child _ hw ih => exact closed _ ih _ hw
  exact comes.reachable.elim (holds_of_isScalar h) there

theorem yields (comes : Comes s held h t v spot w) (yields : h.Yields w x) :
    Comes s held h t v spot x := by
  induction yields with
  | same => exact comes
  | void => exact .scalar rfl
  | scalar _ _ hw => exact .scalar hw
  | data _ ih => exact ih comes.data

/-- A record with a model in use that goes through properties has let go of the model. -/
theorem letsGo (comes : Comes s held h t v (.inside u) (.record r)) (hm : h.attached? r = some m)
    (used : .model m ∈ held) : LetsGo s held h t v r := by
  suffices all : ∀ {spot w}, Comes s held h t v spot w → ∀ u, spot = .inside u →
      w.isScalar = true ∨ ∃ r, w = .record r ∧
        ((∀ m, h.attached? r = some m → .model m ∉ held) ∨ LetsGo s held h t v r) by
    rcases all comes u rfl with plain | ⟨r', e, unused | gone⟩
    · cases plain
    · cases e
      exact absurd ‹_› (unused m hm)
    · cases e
      exact gone
  intro spot w comes u e
  induction comes with
  | scalar hw => exact Or.inl hw
  | data _ ih =>
    rcases ih e with plain | ⟨r, none, -⟩
    · cases plain
    · cases none
  | @enter _ r _ _ _ unused => exact Or.inr ⟨r, rfl, Or.inl unused⟩
  | @reenter _ q' r _ u' m _ _ hm type wraps other data =>
    exact Or.inr ⟨r, rfl, Or.inr ⟨q', u', m, hm, data, type, wraps, other⟩⟩
  | _ => cases e

end Comes

/-! ### What is kept on these ways -/

section Kept

variable (s : Schema) (held : List Value) (before : Heap) (t : TypeId) (v : Value)

/-- What is kept while a value is wrapped: records and arrays hold nothing but what comes there, and
records keep their models in use unless they had to let go of them. -/
structure Undisturbed (h : Heap) : Prop where
  /-- No cell is gone. -/
  grows : before.Grows h
  /-- What records hold comes there. -/
  fields : ∀ {u r}, Comes s held before t v (.inside u) (.record r) → ∀ key,
    Comes s held before t v (.field r key) ((h.fields r).get key)
  /-- So does what arrays hold. -/
  items : ∀ {q e a}, Comes s held before t v (.slot q) (.array a) → q.items? = some e → ∀ i,
    Comes s held before t v (.slot e) (h.item a i)
  /-- The models in use are still attached. -/
  attached : ∀ {r m}, before.attached? r = some m → .model m ∈ held →
    ¬ LetsGo s held before t v r → h.attached? r = some m

end Kept

namespace Undisturbed

variable {before : Heap}

theorem start : Undisturbed s held before t v before :=
  ⟨.refl before, fun comes key => .stored key comes, fun comes he i => .element i comes he,
    fun attached _ _ => attached⟩

theorem insert {key : String} (kept : Undisturbed s held before t v h)
    (comes : Comes s held before t v (.field r key) w) :
    Undisturbed s held before t v (h.insert r key w) where
  grows := kept.grows.trans (h.grows_insert r key w)
  fields {_ r'} inside key' := by
    rw [fields_insert]
    split
    · rename_i same
      rw [Fields.get_insert]
      split
      · rename_i e
        rw [same.1, e]
        exact comes
      · exact kept.fields inside key'
    · exact kept.fields inside key'
  items comes he i := kept.items comes he i
  attached hm held stays := (attached?_insert ..).trans (kept.attached hm held stays)

theorem setItem {i : Nat} (kept : Undisturbed s held before t v h)
    (kept' : Undisturbed s held before t v h') (closed : before.Closed) (hv : before.Holds v)
    (yields : h.Yields (h.item a i) w) :
    Undisturbed s held before t v (h'.setItem a i w) where
  grows := kept'.grows.trans (h'.grows_setItem a i w)
  fields inside key := kept'.fields inside key
  items {q' e' b} hb he' j := by
    rw [item_setItem]
    split
    · rename_i same
      rw [same.1] at hb
      have comes := kept.items hb he' i
      exact comes.yields (yields.of_grows kept.grows closed (comes.holds closed hv))
    · exact kept'.items hb he' j
  attached hm held stays := kept'.attached hm held stays

theorem setWrapper {wrapper : Option ModelId} (kept : Undisturbed s held before t v h)
    (gone : ∀ m, before.attached? r = some m → .model m ∈ held → LetsGo s held before t v r) :
    Undisturbed s held before t v (h.setWrapper r wrapper) where
  grows := kept.grows.trans (h.grows_setWrapper r wrapper)
  fields inside key := by
    rw [fields_setWrapper]
    exact kept.fields inside key
  items comes he i := kept.items comes he i
  attached {r' m} hm held stays := by
    rw [attached?_setWrapper, if_neg]
    · exact kept.attached hm held stays
    · rintro ⟨rfl, -⟩
      exact stays (gone m hm held)

theorem addModel (kept : Undisturbed s held before t v h) (u : TypeId) (w : Value) :
    Undisturbed s held before t v (h.addModel u w).2 :=
  ⟨kept.grows.trans (h.extends_addModel u w).grows, kept.fields, kept.items, kept.attached⟩

/-- A model that meets a type it is no instance of is one that its record had to let go of. -/
theorem letsGo (kept : Undisturbed s held before t v h) (closed : before.Closed)
    (hv : before.Holds v) (hm : Comes s held before t v (.slot q) (.model m))
    (type : q.type = .model u) (wraps : (s.type u).wraps = true)
    (other : s.derivesFrom (h.type m) u = false)
    (data : h.data m = .record r) : LetsGo s held before t v r := by
  have there := hm.holds closed hv
  rw [kept.grows.type_eq there] at other
  rw [kept.grows.data_eq there] at data
  exact ⟨q, u, m, hm, data, type, wraps, other⟩

theorem enter (kept : Undisturbed s held before t v h)
    (hr : Comes s held before t v (.slot q) (.record r)) (form : q.form? s = some u)
    (unused : ∀ m, h.attached? r = some m → .model m ∉ held) :
    Comes s held before t v (.inside u) (.record r) := by
  by_cases stays : ∀ m, before.attached? r = some m → .model m ∉ held
  · exact .enter hr form stays
  · push Not at stays
    obtain ⟨m, hm, used⟩ := stays
    by_cases gone : LetsGo s held before t v r
    · obtain ⟨q', u', m', hm', data, type, wraps, other⟩ := gone
      exact .reenter hr form hm' type wraps other data
    · exact absurd used (unused m (kept.attached hm used gone))

end Undisturbed

/-- What is followed where a value is wrapped. -/
def Routing.wrapping (s : Schema) (held : List Value) {before : Heap} (t : TypeId) {v : Value}
    (closed : before.Closed) (hv : before.Holds v) : Routing s where
  held := held
  Keeps := Undisturbed s held before t v
  At _ := Comes s held before t v
  there kept comes := (comes.holds closed hv).grows kept.grows
  grows _ comes := comes
  scalar _ plain := .scalar plain
  data _ kept comes := by
    rw [kept.grows.data_eq (comes.holds closed hv)]
    exact comes.data
  element i _ kept comes he := kept.items comes he i
  enter kept comes form unused := kept.enter comes form unused
  entry {h r u key p x} _ kept comes unreserved hp hx := by
    have field := kept.fields comes key
    rw [Fields.get_of_mem hx] at field
    exact ⟨.entry comes unreserved hp field, .moved comes unreserved hp field⟩
  insert kept comes := kept.insert comes
  setItem _ kept kept' _ _ _ yields := kept.setItem kept' closed hv yields
  release kept comes type wraps other data :=
    kept.setWrapper fun _ _ _ => kept.letsGo closed hv comes type wraps other data
  attach kept comes _ _ _ := kept.setWrapper fun _ hm used => comes.letsGo hm used
  addModel u kept _ _ := kept.addModel u _

/-! ### Wrapping -/

theorem wrapUnder_disabled (perform : Perform) (ht : (c.schema.type t).wrap = .disabled)
    (coerce : (c.schema.type t).coerce = none)
    (own : ∀ m, v = .model m → st.heap.data m = .record r →
      c.schema.derivesFrom (st.heap.type m) t = true) :
    (wrapUnder perform t v c st).2.heap.attached? r = st.heap.attached? r := by
  cases hv : v.isModel with
  | false =>
    rw [wrapUnder_run perform c st (Or.inr ht) coerce hv]
    split
    · rfl
    · rw [wrapData_disabled perform c st ht]
  | true =>
    obtain ⟨m, rfl⟩ : ∃ m, v = .model m := by
      cases v <;> first | exact ⟨_, rfl⟩ | cases hv
    cases hd : c.schema.derivesFrom (st.heap.type m) t with
    | true => rw [wrapUnder_instance (Or.inr ht) hd]
    | false =>
      rw [wrapUnder_model_run perform (Or.inr ht) coerce hd, bind_run, release_eq]
      dsimp only
      rw [wrapData_disabled perform c _ ht]
      dsimp only
      rcases hr : st.heap.record? m with _ | r'
      · rfl
      · rw [Option.elim_some, attached?_setWrapper, if_neg]
        rintro ⟨rfl, -⟩
        cases hd.symm.trans (own m rfl (st.heap.data_of_record? hr))

/-- **Wrapping takes models in use from no other records.**  Let a value be wrapped by a type
without hooks, whatever comes of it.  A record keeps the model that is attached to it and in use
unless the value is a model of the record and no instance of the type.  Where the type wraps values,
what the value leads to along properties and elements may come to a type that it is no instance of,
too.

So wrapping the record again gives this model. -/
theorem wrap_keeps_attached {w : ModelId} {st' : State} {result : Except Fault Value}
    (hc : c.schema = s) (free : s.Free (.model t)) (reached : st.heap.Reached s)
    (there : ∀ x ∈ v :: (c.held ++ s.heldValues), st.heap.Holds x)
    (attached : st.heap.attached? r = some w) (used : .model w ∈ c.held)
    (own : ∀ m, v = .model m → st.heap.data m = .record r →
      s.derivesFrom (st.heap.type m) t = true)
    (stays : (s.type t).wraps = true → ¬ LetsGo s c.held st.heap t v r)
    (run : wrap (.model t) v c st = (result, st')) :
    ∀ c₁ st₁, c₁.schema = s → st₁.heap = st'.heap → .model w ∈ c₁.held →
      (∀ x ∈ c₁.held ++ s.heldValues, st₁.heap.Holds x) →
        liveWrapper? c₁ st₁.heap (.record r) = some w ∧
          (s.WrapsPlainly (st.heap.type w) →
            wrap (.model (st.heap.type w)) (.record r) c₁ st₁ = (.ok (.model w), st₁)) := by
  subst hc
  have rules := free.ruleFree
  have hv := there v List.mem_cons_self
  have roots : ∀ x ∈ c.held ++ c.schema.heldValues, st.heap.Holds x := fun x hx =>
    there x (List.mem_cons_of_mem _ hx)
  obtain ⟨d, e⟩ : ∃ d, Engine.perform (d + 1) (.wrap (.model t) v) c st = (result, st') := by
    obtain ⟨d, e⟩ := wrap_run t v c st
    exact ⟨d, e.symm.trans run⟩
  have steps := ((perform_steady c.schema (d + 1) (.wrap (.model t) v)).steps True c st rfl
    fun _ => ⟨reached.closed, there⟩).1
  rw [e] at steps
  have kept : st'.heap.attached? r = some w := by
    -- a type that is never wrapped has no routing, but its step leaves every wrapper alone
    by_cases wraps : (c.schema.type t).wraps = true
    · have sound : (Routing.wrapping c.schema c.held t reached.closed hv).Sound
          (c.held ++ c.schema.heldValues) st.heap :=
        ⟨reached.closed, .start, fun x hx => List.mem_append_left _ hx, fun _ _ => roots⟩
      have follows := (Routing.perform_served _ (d + 1)).wrap rfl sound
        (q := .alone (.model t)) rfl free wraps .start
      rw [e] at follows
      exact follows.kept.keeps.attached attached used (stays wraps)
    · have disabled : (c.schema.type t).wrap = .disabled := by
        simpa [ModelType.wraps] using wraps
      have same := wrapUnder_disabled (Engine.perform d) disabled rules.coerce own
      rw [show wrapUnder (Engine.perform d) t v c st = (result, st') from e] at same
      exact same.trans attached
  intro c₁ st₁ hc₁ hst₁ used₁ there₁
  have live : liveWrapper? c₁ st₁.heap (.record r) = some w := by
    rw [hst₁] at there₁ ⊢
    refine wrapper?_of_mem (Steps.closed steps trivial reached.closed) (fun x hx => ?_) kept
      (by simp [used₁])
    rcases List.mem_cons.1 hx with rfl | hx
    · exact holds_of_attached? kept
    · exact there₁ x (hc₁ ▸ hx)
  refine ⟨live, fun plain => ?_⟩
  have type : st₁.heap.type w = st.heap.type w := by
    rw [hst₁]
    exact (Steps.grows steps).type_eq (reached.tied r w attached).1
  exact (wrap_live (hc₁ ▸ plain) live (by rw [type]; exact c₁.schema.derivesFrom_self _)).1

/-! ### A page of a book -/

/-- A page is made of data with a number. -/
def makePage : Except Fault ModelId × State :=
  create ⟨1⟩ (some (.record ⟨0⟩)) ⟨bookSchema, []⟩
    ⟨(Heap.empty.recordOf [("n", .number (.ofInt 5))]).2, .throwing, []⟩

/-- The page is in use. -/
def pageInUse : Context := ⟨bookSchema, [.model ⟨0⟩]⟩

/-- The page is taken for a book. -/
def mistakePage : Except Fault Value × State :=
  wrap (.model ⟨3⟩) (.model ⟨0⟩) pageInUse makePage.2

theorem makePage_reached : makePage.2.heap.Reached bookSchema := by
  have data : (Heap.empty.recordOf [("n", .number (.ofInt 5))]).2.Reached bookSchema :=
    .single (.addRecord (by decide +kernel))
  exact @Heap.Reached.perform _ _ _ ⟨_, .throwing, []⟩ data _ _ rfl (by decide +kernel)

/-- A book has no number, so this fails, but the record of the page lets go of the page, though it
is in use; wrapping the record gives another one. -/
theorem wrap_page_as_book :
    makePage.2.heap.Reached bookSchema ∧ bookSchema.Free (.model ⟨3⟩) ∧
      liveWrapper? pageInUse makePage.2.heap (.record ⟨0⟩) = some ⟨0⟩ ∧
      .model ⟨0⟩ ∈ pageInUse.held ∧
      mistakePage.1 = .error (.error (.unrecognizedKey "n")) ∧
      liveWrapper? pageInUse mistakePage.2.heap (.record ⟨0⟩) = none ∧
      (wrap (.model ⟨1⟩) (.record ⟨0⟩) pageInUse mistakePage.2).1 = .ok (.model ⟨2⟩) :=
  ⟨makePage_reached, bookSchema_built.free bookSchema_ruleFree _, by decide +kernel,
    by decide +kernel, by decide +kernel, by decide +kernel, by decide +kernel⟩

/-- Pages and books with a type of loose sheets, which wraps nothing. -/
def looseSchema : Schema :=
  (bookSchema.addModel (.extended .root .root
    { Extension.empty with name := some "Loose", wrap := .disabled } [])).2

-- a page is no loose sheet, so its record comes back without it, though nothing is wrapped
example :
    let taken := wrap (.model ⟨4⟩) (.model ⟨0⟩) ⟨looseSchema, pageInUse.held⟩ makePage.2
    taken.1 = .ok (.record ⟨0⟩) ∧
      liveWrapper? pageInUse makePage.2.heap (.record ⟨0⟩) = some ⟨0⟩ ∧
      liveWrapper? pageInUse taken.2.heap (.record ⟨0⟩) = none := by
  decide +kernel

/-- The data of a book with this page for its title page, and with a key that books do not have. -/
def draft : Heap :=
  (makePage.2.heap.recordOf [("title", .model ⟨0⟩), ("blurb", .string "new")]).2

/-- They are wrapped as a book. -/
def bindDraft : Except Fault Value × State :=
  wrap (.model ⟨3⟩) (.record ⟨1⟩) pageInUse ⟨draft, .throwing, []⟩

/-- Where the values of the draft come to. -/
inductive Drafted : Spot → Value → Prop
  | scalar {spot : Spot} {w : Value} (hw : w.isScalar = true) : Drafted spot w
  | data : Drafted (.slot (.alone (.model ⟨3⟩))) (.record ⟨1⟩)
  | book : Drafted (.inside ⟨3⟩) (.record ⟨1⟩)
  | key {w : Value} (hw : w = .model ⟨0⟩ ∨ w = .record ⟨0⟩) : Drafted (.field ⟨1⟩ "title") w
  | title {w : Value} (hw : w = .model ⟨0⟩ ∨ w = .record ⟨0⟩) : Drafted (.slot titlePage.slot) w

theorem drafted_of_comes {spot : Spot} {w : Value}
    (comes : Comes bookSchema pageInUse.held draft ⟨3⟩ (.record ⟨1⟩) spot w) : Drafted spot w := by
  have page : ∀ {m : ModelId}, .model m = Value.model ⟨0⟩ ∨ .model m = Value.record ⟨0⟩ →
      draft.data m = .model ⟨0⟩ ∨ draft.data m = .record ⟨0⟩ := by
    rintro m (e | e) <;> cases e
    exact Or.inr (by decide +kernel)
  have declared : (bookSchema.type ⟨3⟩).property? "title" = some titlePage := by decide +kernel
  induction comes with
  | start => exact .data
  | scalar hw => exact .scalar hw
  | data _ ih =>
    cases ih with
    | scalar hw => cases hw
    | key hw => exact .key (page hw)
    | title hw => exact .title (page hw)
  | element _ _ _ ih =>
    cases ih with
    | scalar hw => cases hw
    | title hw => rcases hw with hw | hw <;> cases hw
  | enter _ form unused ih =>
    cases ih with
    | scalar hw => cases hw
    | data =>
      obtain rfl := Option.some.inj ((show (Slot.alone (.model ⟨3⟩)).form? bookSchema = some ⟨3⟩ by
        decide +kernel).symm.trans form)
      exact .book
    | title hw =>
      -- the record of the page has the page, which is in use
      rcases hw with hw | hw <;> cases hw
      exact absurd List.mem_cons_self (unused ⟨0⟩ (by decide +kernel))
  | reenter _ _ _ type _ other _ _ ih =>
    cases ih with
    | scalar hw => cases hw
    | title hw =>
      rcases hw with hw | hw <;> cases hw
      cases type
      exact absurd other (by decide +kernel)
  | stored key _ ih =>
    cases ih with
    | scalar hw => cases hw
    | book =>
      rcases (draft.fields ⟨1⟩).get_cases key with hk | hk
      · have all : ∀ e ∈ (draft.fields ⟨1⟩).entries, e.2.isScalar = true ∨
            (e.1 = "title" ∧ e.2 = .model ⟨0⟩) := by decide +kernel
        rcases all _ hk with plain | ⟨rfl, e⟩
        · exact .scalar plain
        · exact .key (Or.inl e)
      · rw [hk]
        exact .scalar rfl
  | entry _ _ hp _ ih ih' =>
    cases ih' with
    | scalar hw => exact .scalar hw
    | key hw =>
      cases ih with
      | scalar hw => cases hw
      | book =>
        obtain rfl := Option.some.inj (declared.symm.trans hp)
        exact .title hw
  | moved _ _ hp _ ih ih' =>
    cases ih' with
    | scalar hw => exact .scalar hw
    | key hw =>
      cases ih with
      | scalar hw => cases hw
      | book =>
        obtain rfl := Option.some.inj (declared.symm.trans hp)
        exact .key hw

/-- Binding the draft fails, but the page stays with its record: it came to its own type. -/
theorem wrap_keeps_attached_page :
    bindDraft.1 = .error (.error (.unrecognizedKey "blurb")) ∧
      liveWrapper? pageInUse bindDraft.2.heap (.record ⟨0⟩) = some ⟨0⟩ ∧
      wrap (.model ⟨1⟩) (.record ⟨0⟩) pageInUse bindDraft.2 = (.ok (.model ⟨0⟩), bindDraft.2) := by
  let st : State := ⟨draft, .throwing, []⟩
  have reached : st.heap.Reached bookSchema := makePage_reached.tail (.addRecord (by decide +kernel))
  have attached : st.heap.attached? ⟨0⟩ = some ⟨0⟩ := by decide +kernel
  have run : wrap (.model ⟨3⟩) (.record ⟨1⟩) pageInUse st = (bindDraft.1, bindDraft.2) := rfl
  have stays : ¬ LetsGo bookSchema pageInUse.held draft ⟨3⟩ (.record ⟨1⟩) ⟨0⟩ := by
    rintro ⟨q, u, m, comes, -, type, -, other⟩
    cases drafted_of_comes comes with
    | scalar hw => cases hw
    | title hw =>
      rcases hw with hw | hw <;> cases hw
      cases type
      exact absurd other (by decide +kernel)
  have there : ∀ x ∈ pageInUse.held ++ bookSchema.heldValues, bindDraft.2.heap.Holds x := by
    decide +kernel
  have keeps := wrap_keeps_attached (c := pageInUse) (v := .record ⟨1⟩) rfl
    (bookSchema_built.free bookSchema_ruleFree ⟨3⟩) reached (by decide +kernel) attached
    (by decide +kernel) nofun (fun _ => stays) run pageInUse bindDraft.2 rfl rfl (by decide +kernel)
    there
  have type : draft.type ⟨0⟩ = ⟨1⟩ := by decide +kernel
  rw [type] at keeps
  exact ⟨by decide +kernel, keeps.1, keeps.2 ⟨by decide +kernel, by decide +kernel⟩⟩

end Engine

end Overlay
