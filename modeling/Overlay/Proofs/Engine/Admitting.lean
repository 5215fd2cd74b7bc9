import Overlay.Proofs.Engine.Judged

/-!
# Putting entries through their properties

While a model is being constructed, each entry of its record goes through the property that its key
names, and what comes out is written under the storage key of the property.  The own cells of an
entry are seen under its key alone until its turn comes, and then under the storage key as well.
`Engine.Admitting` says which cells are seen where.

* `Engine.Admitting.skip`, `Engine.Admitting.write` : one entry is passed over or written;
* `Engine.Admitting.shows`, `Engine.Admitting.knows` : the record when all entries are done.
-/

namespace Overlay

namespace Engine

open Heap

/-- Each entry of the record has own cells: different ones for different keys, and others than the
shared cells and the record itself. -/
structure Owned (h : Heap) (F : Value → Prop) (r : RecordId) (own : String → List Value) :
    Prop where
  /-- Different keys have different cells. -/
  apart : ∀ key key', key ≠ key' → ∀ u ∈ own key, u ∉ own key'
  /-- They are not shared. -/
  unshared : ∀ u, F u → ∀ key, u ∉ own key
  /-- The record is none of the cells. -/
  outside : ∀ key u, F u ∨ u ∈ own key → u ≠ .record r
  /-- All of them are there. -/
  held : ∀ key u, F u ∨ u ∈ own key → h.Holds u

/-- The entries `pending` of the record of a new model have yet to go through their properties; its
fields show `fields` now, and `written` lists the keys that were written.  What is under a key is
made of the own cells of one entry.  If that is pending, it is the entry of the key itself, which
was not written. -/
structure Admitting (s : Schema) (F : Value → Prop) (t : TypeId) (r : RecordId)
    (own : String → List Value) (es : Entries) (pending : List (String × Value))
    (written : List String) (fields : Entries) (h : Heap) : Prop where
  /-- The entries have cells of their own. -/
  owned : Owned h F r own
  /-- The record is there. -/
  held : h.Holds (.record r)
  /-- It shows the keys. -/
  keys : (h.fields r).keys = fields.keys
  /-- No key is pending twice. -/
  nodup : (pending.map Prod.fst).Nodup
  /-- Pending entries are on offer. -/
  offered : ∀ key v, (key, v) ∈ pending →
    Offered s h F [(s.type t).slot? key] [v] [es.get key] (own key)
  /-- What the record shows under a key. -/
  shown : ∀ key, ∃ owner,
    h.Shows (fun u => F u ∨ u ∈ own owner) [(h.fields r).get key] [fields.get key] ∧
      (owner ∈ pending.map Prod.fst → owner = key ∧ key ∉ written) ∧
      ∀ v, (key, v) ∈ pending → key ∉ written →
        owner = key ∧ (h.fields r).get key = v ∧ fields.get key = es.get key
  /-- What is not pending any more is known by its property. -/
  known : s.Keyed (.model t) → ∀ key, isReserved key = false →
    (key ∈ pending.map Prod.fst ∧ key ∉ written) ∨
      Known s h ((s.type t).slot? key) ((h.fields r).get key)

section Steps

variable {s : Schema} {F : Value → Prop} {t : TypeId} {r : RecordId} {own : String → List Value}
  {es fields : Entries} {pending rest : List (String × Value)} {written : List String}
  {h h' : Heap} {key : String} {v w : Value} {y : Tree} {T : List Value}

theorem Owned.grows (o : Owned h F r own) (g : h.Grows h') : Owned h' F r own :=
  ⟨o.apart, o.unshared, o.outside, fun key u hu => (o.held key u hu).grows g⟩

/-- What an entry owns is not touched when another one changes its own cells. -/
theorem Owned.untouched (o : Owned h F r own) {owner : String} (other : owner ≠ key) :
    ∀ u, F u ∨ u ∈ own owner → h.Holds u ∧ u ∉ own key := fun u hu =>
  ⟨o.held _ u hu, hu.elim (fun hu => o.unshared u hu key) fun hu => o.apart _ _ other u hu⟩

theorem Owned.unstored (o : Owned h F r own) (owner : String) :
    ∀ u, F u ∨ u ∈ own owner → h.Holds u ∧ u ∉ [.record r] := fun u hu =>
  ⟨o.held _ u hu, fun h => o.outside _ u hu (List.mem_singleton.1 h)⟩

namespace Admitting

theorem start (o : Offered s h F ((h.fields r).keys.map (s.type t).slot?) (h.fields r).values
      (es.map Prod.snd) T) (keys : (h.fields r).keys = es.keys) (held : h.Holds (.record r))
    (hT : .record r ∉ T) (hF : ¬ F (.record r)) :
    ∃ own, (∀ key, ∀ u ∈ own key, u ∈ T) ∧
      Admitting s F t r own es (h.fields r).entries [] es h := by
  have nodup : es.keys.Nodup := keys ▸ (h.fields r).nodup
  have entries : Offered s h F ((h.fields r).entries.map fun e => (s.type t).slot? e.1)
      ((h.fields r).entries.map Prod.snd) (es.map Prod.snd) T := by
    unfold Fields.keys Fields.values at o
    rwa [List.map_map] at o
  obtain ⟨own, offered, apart, sub⟩ := Offered.by_key (g := (s.type t).slot?) entries keys nodup
  refine ⟨own, sub, ⟨apart, fun u hu key h => (o.shared u hu).2.1 (sub key u h),
    fun key u hu e => ?_, fun key u hu => o.holds_of u (hu.imp_right (sub key u))⟩, held, keys,
    (h.fields r).nodup, offered, fun key => ⟨key, ?_, fun _ => ⟨rfl, List.not_mem_nil⟩,
      fun v hv _ => ⟨rfl, Fields.get_of_mem hv, rfl⟩⟩, fun _ key _ => ?_⟩
  · subst e
    exact hu.elim hF fun hu => hT (sub key _ hu)
  · rcases (h.fields r).get_cases key with hv | hv
    · exact (offered key _ hv).shows
    · have : key ∉ es.keys := fun h => Fields.mem_keys_iff.1 (keys ▸ h) hv
      rw [hv, Entries.get_of_not_mem this]
      exact .leaf rfl .nil
  · rcases (h.fields r).get_cases key with hv | hv
    · exact Or.inl ⟨List.mem_map.2 ⟨_, hv, rfl⟩, List.not_mem_nil⟩
    · rw [hv]
      exact Or.inr (.scalar rfl)

/-- An entry that no property is declared for is passed over. -/
theorem skip (a : Admitting s F t r own es ((key, v) :: rest) written fields h)
    (none : (s.type t).slot? key = none) : Admitting s F t r own es rest written fields h where
  owned := a.owned
  held := a.held
  keys := a.keys
  nodup := (List.nodup_cons.1 a.nodup).2
  offered := fun k u hu => a.offered k u (List.mem_cons_of_mem _ hu)
  shown := fun k => by
    obtain ⟨owner, shows, own₁, own₂⟩ := a.shown k
    exact ⟨owner, shows, fun h => own₁ (List.mem_cons_of_mem _ h),
      fun u hu => own₂ u (List.mem_cons_of_mem _ hu)⟩
  known := fun keyed k hk => by
    rcases a.known keyed k hk with ⟨mem, out⟩ | known
    · rcases List.mem_cons.1 mem with rfl | mem
      · obtain ⟨owner, -, -, own₂⟩ := a.shown k
        rw [(own₂ v List.mem_cons_self out).2.1]
        have o := a.offered k v List.mem_cons_self
        exact Or.inr (Known.of_free o.shows o.free_of v List.mem_cons_self _)
      · exact Or.inl ⟨mem, out⟩
    · exact Or.inr known

/-! #### Writing an entry

The stored form of the first pending entry is written under the storage key of its property. -/

section Write

variable {p : Property} (a : Admitting s F t r own es ((key, v) :: rest) written fields h)
  (d : h.ChangesOnly h' (own key))
  (settled : Settled s F (own key) p.slot v (es.get key) w y h')

include a d

theorem get_written (key' k : String) : ((h'.insert r key' w).fields r).get k =
    if k = key' then w else (h.fields r).get k := by
  have out : .record r ∉ own key := fun h => a.owned.outside key _ (Or.inr h) rfl
  rw [fields_insert, if_pos ⟨rfl, a.held.grows d.grows⟩, Fields.get_insert, d.fields r a.held out]

theorem shows_written {owner : String} {vs : List Value} {xs : List Tree}
    (shows : h'.Shows (fun u => F u ∨ u ∈ own owner) vs xs) (key' : String) :
    (h'.insert r key' w).Shows (fun u => F u ∨ u ∈ own owner) vs xs :=
  shows.of_changesOnly (h'.changesOnly_insert List.mem_cons_self _ _)
    ((a.owned.grows d.grows).unstored _)

theorem known_written {owner : String} {o : Option Slot} {u : Value} {x : Tree}
    (shows : h'.Shows (fun u => F u ∨ u ∈ own owner) [u] [x]) (known : Known s h' o u)
    (key' : String) : Known s (h'.insert r key' w) o u :=
  Known.of_changesOnly shows (h'.changesOnly_insert List.mem_cons_self _ _)
    ((a.owned.grows d.grows).unstored _) _ List.mem_cons_self _ known

theorem offered_written (key' k : String) (u : Value) (hu : (k, u) ∈ rest) :
    Offered s (h'.insert r key' w) F [(s.type t).slot? k] [u] [es.get k] (own k) := by
  have other : k ≠ key := fun e =>
    (List.nodup_cons.1 a.nodup).1 (e ▸ List.mem_map.2 ⟨_, hu, rfl⟩)
  have untouched := a.owned.untouched other
  have unstored := (a.owned.grows d.grows).unstored k
  exact ((a.offered k u (List.mem_cons_of_mem _ hu)).advance d
    (fun u hu => (untouched u (Or.inl hu)).2) fun u hu => (untouched u (Or.inr hu)).2).advance
      (h'.changesOnly_insert List.mem_cons_self _ _)
      (fun u hu => (unstored u (Or.inl hu)).2) fun u hu => (unstored u (Or.inr hu)).2

include settled

omit d in
/-- The entry itself is seen under its key, unless something else was written there. -/
theorem get_reveal (out : key ∉ written) (hv : (h.fields r).get key = v)
    (hx : fields.get key = es.get key) :
    (Entries.reveal written key y fields).get key = (es.get key).seen y := by
  unfold Tree.seen
  by_cases hy : y.isLeaf = true
  · rw [if_pos hy, Entries.get_reveal (Or.inl hy), hx]
  · have there : key ∈ fields.keys := by
      rw [← a.keys, Fields.mem_keys_iff, hv, ← settled.same (Bool.eq_false_iff.2 hy)]
      intro e
      have : y.isUndefined = true := settled.isUndefined_eq.trans (by rw [e]; rfl)
      rw [Tree.isUndefined_iff.1 this] at hy
      exact hy rfl
    unfold Entries.reveal
    rw [if_neg (by simp [hy, out]), if_neg hy, Entries.get_replace, if_pos ⟨rfl, there⟩]

/-- What the record shows under a key when the entry is written. -/
theorem shown_written (k : String) : ∃ owner,
    (h'.insert r p.storageKey w).Shows (fun u => F u ∨ u ∈ own owner)
        [((h'.insert r p.storageKey w).fields r).get k]
        [(Entries.put p.storageKey y (Entries.reveal written key y fields)).get k] ∧
      (owner ∈ rest.map Prod.fst → owner = k ∧ k ∉ p.storageKey :: written) ∧
      ∀ u, (k, u) ∈ rest → k ∉ p.storageKey :: written →
        owner = k ∧ ((h'.insert r p.storageKey w).fields r).get k = u ∧
          (Entries.put p.storageKey y (Entries.reveal written key y fields)).get k =
            es.get k := by
  have fresh : key ∉ rest.map Prod.fst := (List.nodup_cons.1 a.nodup).1
  rw [a.get_written d, Entries.get_put]
  by_cases hk : k = p.storageKey
  · rw [if_pos hk, if_pos hk]
    exact ⟨key, a.shows_written d settled.shows_stored _, fun h => absurd h fresh,
      fun _ _ h => absurd (hk ▸ List.mem_cons_self) h⟩
  · rw [if_neg hk, if_neg hk]
    have still : k ∉ p.storageKey :: written ↔ k ∉ written := by simp [hk]
    obtain ⟨owner, shows, own₁, own₂⟩ := a.shown k
    by_cases ho : owner = key
    · -- what is under the key is the entry itself
      obtain ⟨rfl, hw⟩ := own₁ (ho ▸ List.mem_cons_self)
      subst ho
      obtain ⟨-, hv, hx⟩ := own₂ v List.mem_cons_self hw
      rw [hv, a.get_reveal settled hw hv hx]
      exact ⟨owner, a.shows_written d settled.shows _, fun h => absurd h fresh,
        fun u hu _ => absurd (List.mem_map.2 ⟨_, hu, rfl⟩) fresh⟩
    · have same : (Entries.reveal written key y fields).get k = fields.get k := by
        refine Entries.get_reveal (or_iff_not_imp_left.2 fun _ =>
          or_iff_not_imp_left.2 fun hw e => ho ?_)
        subst e
        exact (own₂ v List.mem_cons_self hw).1
      rw [same]
      exact ⟨owner, a.shows_written d (shows.of_changesOnly d (a.owned.untouched ho)) _,
        fun h => (own₁ (List.mem_cons_of_mem _ h)).imp_right still.2,
        fun u hu hw => own₂ u (List.mem_cons_of_mem _ hu) (still.1 hw)⟩

/-- What is not pending any more is known, the entry included. -/
theorem knows_written (hp : (s.type t).property? key = some p)
    (found : (s.type t).property? p.storageKey = some p)
    (keyed : s.Keyed (.model t)) (k : String) (hk : isReserved k = false) :
    (k ∈ rest.map Prod.fst ∧ k ∉ p.storageKey :: written) ∨
      Known s (h'.insert r p.storageKey w) ((s.type t).slot? k)
        (((h'.insert r p.storageKey w).fields r).get k) := by
  rw [a.get_written d]
  by_cases hsk : k = p.storageKey
  · rw [if_pos hsk]
    refine Or.inr (a.known_written d settled.shows_stored ?_ _)
    unfold ModelType.slot?
    rw [hk, hsk, found]
    exact settled.known_stored (keyed.slot hp)
  · rw [if_neg hsk]
    obtain ⟨owner, shows, own₁, own₂⟩ := a.shown k
    have entry : key ∉ written → k = key → Known s (h'.insert r p.storageKey w)
        ((s.type t).slot? k) ((h.fields r).get k) := by
      rintro hw rfl
      rw [(own₂ v List.mem_cons_self hw).2.1]
      refine a.known_written d settled.shows ?_ _
      unfold ModelType.slot?
      rw [hk, hp]
      exact settled.known (keyed.slot hp)
    rcases a.known keyed k hk with ⟨mem, hw⟩ | known
    · rcases List.mem_cons.1 mem with e | mem
      · have e : k = key := e
        exact Or.inr (entry (e ▸ hw) e)
      · exact Or.inl ⟨mem, fun h => (List.mem_cons.1 h).elim hsk hw⟩
    · by_cases ho : owner = key
      · obtain ⟨e, hw⟩ := own₁ (ho ▸ List.mem_cons_self)
        exact Or.inr (entry (ho ▸ e ▸ hw) (e ▸ ho))
      · have untouched := a.owned.untouched ho
        exact Or.inr (a.known_written d (shows.of_changesOnly d untouched)
          (Known.of_changesOnly shows d untouched _ List.mem_cons_self _ known) _)

/-- The entry is done. -/
theorem write (hp : (s.type t).property? key = some p)
    (found : s.Keyed (.model t) → (s.type t).property? p.storageKey = some p) :
    Admitting s F t r own es rest (p.storageKey :: written)
      (Entries.put p.storageKey y (Entries.reveal written key y fields))
      (h'.insert r p.storageKey w) where
  owned := (a.owned.grows d.grows).grows (h'.grows_insert ..)
  held := (a.held.grows d.grows).grows (h'.grows_insert ..)
  keys := by
    have out : .record r ∉ own key := fun h => a.owned.outside key _ (Or.inr h) rfl
    rw [fields_insert, if_pos ⟨rfl, a.held.grows d.grows⟩, d.fields r a.held out]
    exact settled.shows_stored.keys_insert (a.keys.trans Entries.keys_reveal.symm) _
  nodup := (List.nodup_cons.1 a.nodup).2
  offered := a.offered_written d _
  shown := a.shown_written d settled
  known := fun keyed => a.knows_written d settled hp (found keyed) keyed

end Write

/-- All fields are known then. -/
theorem knows (a : Admitting s F t r own es [] written fields h)
    (keyed : s.Keyed (.model t)) (key : String) (hk : isReserved key = false) :
    Known s h ((s.type t).slot? key) ((h.fields r).get key) :=
  (a.known keyed key hk).resolve_left fun h => absurd h.1 List.not_mem_nil

end Admitting

end Steps

end Engine

end Overlay
