import Overlay.Proofs.Plain.Admitted
import Overlay.Proofs.Plain.Cleaning
import Overlay.Proofs.Schema.Free

/-!
# Clean trees are stored again

What was stored without objection, once it is cleaned, is stored without objection again, and what
is stored then looks the same when it is cleaned.

A record may have two keys of one property, its name and its storage key.  Both stay, so the second
time both are stored one after the other.  It is the last one that counts, and cleaning keeps the
order of the keys (`Tree.Round.last`).

* `Tree.stored_lasts` : the clean form of what is stored is stored again;
* `Tree.Round.admitted_again` : so it is for all entries of a record.
-/

namespace Overlay

namespace Tree

/-- The clean form of the tree is stored again, and what is stored then has that clean form. -/
def Lasts (s : Schema) (strict : Bool) (q : Slot) (y : Tree) : Prop :=
  ∃ z, stored s strict q (cleaned s (some q) y) = pure z ∧
    cleaned s (some q) z = cleaned s (some q) y

variable {s : Schema} {strict : Bool} {q : Slot} {t : TypeId} {p : Property} {x y : Tree}
  {key k : String} {es out : Entries}

/-- What is seen of a tree that was stored is stored again if what was stored is, with the same
results. -/
theorem Lasts.of_seen (lasts : Lasts s strict q y) (h : stored s strict q x = pure y) :
    ∃ z, stored s strict q (cleaned s (some q) (x.seen y)) = pure z ∧
      cleaned s (some q) z = cleaned s (some q) y ∧
        cleaned s (some q) ((cleaned s (some q) (x.seen y)).seen z) =
          cleaned s (some q) (x.seen y) := by
  unfold seen
  cases hy : y.isLeaf with
  | true =>
    have hx : x.isLeaf = true := (stored_kind h).1.symm.trans hy
    rw [if_pos rfl, cleaned_of_isLeaf hx]
    refine ⟨y, h, rfl, ?_⟩
    rw [hy, if_pos rfl, cleaned_of_isLeaf hx]
  | false =>
    obtain ⟨z, again, same⟩ := lasts
    have hz : z.isLeaf = false := by rw [(stored_kind again).1, isLeaf_cleaned, hy]
    rw [if_neg Bool.false_ne_true]
    refine ⟨z, again, same, ?_⟩
    rw [hz, if_neg Bool.false_ne_true, same]

/-! ### Records -/

/-- All entries were stored without objection, and what is stored of each lasts. -/
structure Round (s : Schema) (strict : Bool) (t : TypeId) (es out : Entries) : Prop where
  /-- Its properties were declared at once. -/
  placed : (s.type t).PlacedAt t.index
  /-- Storage keys belong to one property each. -/
  keyed : (s.type t).WellKeyed
  /-- The record was tidy. -/
  tidy : es.Tidy
  /-- What is stored. -/
  run : admitted s strict t es [] es = pure out
  /-- It lasts. -/
  lasts : ∀ key ∈ es.keys, ∀ p y, (s.type t).through? key = some p →
    stored s strict p.slot (es.get key) = pure y → Lasts s strict p.slot y

theorem Round.of_fields (hs : s.Stratified) (keyed : s.Keyed (.model t)) (tidy : es.Tidy)
    (run : admitted s strict t es [] es = pure out)
    (lasts : ∀ e ∈ es, ∀ q y, s.KeyedSlot q → stored s strict q e.2 = pure y →
      Lasts s strict q y) : Round s strict t es out where
  placed := hs.placedAt t
  keyed := keyed.wellKeyed
  tidy := tidy
  run := run
  lasts := fun key hk p y through hy => by
    obtain ⟨e, he, rfl⟩ := List.mem_map.1 hk
    rw [Entries.get_of_mem tidy.nodup he] at hy
    exact lasts e he p.slot y (keyed.slot (ModelType.through?_eq_some.1 through).2) hy

theorem keeps_iff {t : ModelType} : t.keeps key = true ↔ isReserved key = false ∧
    match t.through? key with
    | some p => p.isPersisted = true
    | none => t.allowsAdditional = true := by
  unfold ModelType.keeps ModelType.through?
  cases isReserved key with
  | true => simp
  | false => cases t.property? key <;> simp

theorem unstored_of_through? {i : Nat} (placed : (s.type t).PlacedAt i)
    (keyed : (s.type t).WellKeyed) (hk : isReserved k = false)
    (own : ∀ p, (s.type t).through? k = some p → k ≠ p.storageKey) : Unstored (s.type t) k := by
  intro key p hp e
  have found := keyed.found_by_storageKey placed hp
  rw [e] at found
  exact own p (ModelType.through?_eq_some.2 ⟨hk, found⟩) e.symm

theorem exists_lastKey? {t : ModelType} {keys : List String} (hk : k ∈ keys)
    (hp : t.through? k = some p) : ∃ last, lastKey? t p keys = some last := by
  have mem : k ∈ keys.filter fun key => t.through? key = some p :=
    List.mem_filter.2 ⟨hk, decide_eq_true hp⟩
  unfold lastKey?
  rw [List.getLast?_eq_some_getLast (List.ne_nil_of_mem mem)]
  exact ⟨_, rfl⟩

namespace Round

variable (r : Round s strict t es out)
include r

theorem found (hp : (s.type t).property? key = some p) :
    (s.type t).property? p.storageKey = some p :=
  ModelType.WellKeyed.found_by_storageKey r.keyed r.placed hp

theorem mem_or_eq (hk : k ∈ out.keys) (hp : (s.type t).through? k = some p) :
    k ∈ es.keys ∨ k = p.storageKey := by
  obtain ⟨-, -, more, keys, source⟩ := admitted_keys r.run r.tidy.defined_mem r.tidy
  rw [keys] at hk
  refine (List.mem_append.1 hk).imp_right fun hk => ?_
  obtain ⟨e, -, p', hp', rfl⟩ := source k hk
  have found := r.found (ModelType.through?_eq_some.1 hp').2
  cases (ModelType.through?_eq_some.1 hp).2.symm.trans found
  rfl

/-- Where there is a key of a property there is its storage key. -/
theorem storageKey_mem (hk : k ∈ out.keys) (hp : (s.type t).through? k = some p) :
    p.storageKey ∈ out.keys := by
  obtain ⟨-, stored, -⟩ := admitted_keys r.run r.tidy.defined_mem r.tidy
  rcases r.mem_or_eq hk hp with there | rfl
  · obtain ⟨e, he, rfl⟩ := List.mem_map.1 there
    exact stored e he p hp
  · exact hk

theorem storageKey_lasts (hk : k ∈ out.keys) (hp : (s.type t).through? k = some p) :
    Lasts s strict p.slot (out.get p.storageKey) := by
  obtain ⟨-, -, more, keys, source⟩ := admitted_keys r.run r.tidy.defined_mem r.tidy
  have found := (ModelType.through?_eq_some.1 hp).2
  -- some entry went through the property, and the last one that did is there
  obtain ⟨key, hkey, hp'⟩ : ∃ key ∈ es.keys, (s.type t).through? key = some p := by
    rw [keys] at hk
    rcases List.mem_append.1 hk with hk | hk
    · exact ⟨k, hk, hp⟩
    · obtain ⟨e, he, p', hp', rfl⟩ := source k hk
      cases found.symm.trans (r.found (ModelType.through?_eq_some.1 hp').2)
      exact ⟨e.1, List.mem_map.2 ⟨e, he, rfl⟩, hp'⟩
  obtain ⟨last, hlast⟩ := exists_lastKey? hkey hp'
  obtain ⟨mem, through⟩ := lastKey?_eq_some hlast
  exact r.lasts last mem p _ through
    ((admitted_stored r.keyed r.placed found r.run r.tidy.nodup).1 last hlast)

/-- If the clean form ends with an entry under the name of a property, so did the entries. -/
theorem last (hp : (s.type t).through? k = some p) (hk : k ≠ p.storageKey)
    (h : lastKey? (s.type t) p (cleanedEntries s t out).keys = some k) :
    lastKey? (s.type t) p es.keys = some k := by
  obtain ⟨-, -, more, keys, source⟩ := admitted_keys r.run r.tidy.defined_mem r.tidy
  have kept := (List.mem_filter.1 (keys_cleanedEntries ▸ (lastKey?_eq_some h).1)).2
  -- all keys of the property are kept
  have all : ((es.keys ++ more).filter (s.type t).keeps).filter
        (fun key => (s.type t).through? key = some p) =
      (es.keys ++ more).filter fun key => (s.type t).through? key = some p := by
    rw [List.filter_filter]
    refine List.filter_congr fun key _ => ?_
    by_cases through : (s.type t).through? key = some p
    · have keeps : (s.type t).keeps key = true := by
        rw [keeps_iff, through]
        rw [keeps_iff, hp] at kept
        exact ⟨(ModelType.through?_eq_some.1 through).1, kept.2⟩
      simp [through, keeps]
    · simp [through]
  -- of those that were added only the storage key is one of them
  have added : ∀ key ∈ more, (s.type t).through? key = some p → key = p.storageKey := by
    intro key hkey through
    obtain ⟨e, -, p', hp', rfl⟩ := source key hkey
    cases (ModelType.through?_eq_some.1 through).2.symm.trans
      (r.found (ModelType.through?_eq_some.1 hp').2)
    rfl
  unfold lastKey? at h ⊢
  rw [keys_cleanedEntries, keys, all, List.filter_append, List.getLast?_append] at h
  rcases hm : (more.filter fun key => (s.type t).through? key = some p).getLast? with _ | key
  · rw [hm] at h
    exact h
  · rw [hm] at h
    obtain rfl : key = k := Option.some.inj h
    have mem := List.mem_filter.1 (List.mem_of_getLast? hm)
    exact absurd (added key mem.1 hp) hk

/-- An entry of the clean form is stored again.  If it is the last one of its property, what is
stored has the clean form that the property had; if it is not under the storage key, what is seen of
it has the clean form that it had. -/
theorem again (hk : k ∈ (cleanedEntries s t out).keys) (hp : (s.type t).through? k = some p) :
    ∃ z, stored s strict p.slot ((cleanedEntries s t out).get k) = pure z ∧
      (lastKey? (s.type t) p (cleanedEntries s t out).keys = some k →
        cleaned s (some p.slot) z = cleaned s (some p.slot) (out.get p.storageKey)) ∧
      (k ≠ p.storageKey → cleaned s (some p.slot) (((cleanedEntries s t out).get k).seen z) =
        (cleanedEntries s t out).get k) := by
  have kept := List.mem_filter.1 (keys_cleanedEntries ▸ hk)
  have slot : (s.type t).slot? k = some p.slot := by rw [ModelType.slot?_eq_through?, hp]; rfl
  rw [get_cleanedEntries kept.2, slot]
  obtain ⟨hkey, found⟩ := ModelType.through?_eq_some.1 hp
  by_cases own : k = p.storageKey
  · subst own
    obtain ⟨z, again, same⟩ := r.storageKey_lasts kept.1 hp
    exact ⟨z, again, fun _ => same, fun h => absurd rfl h⟩
  · have there := (r.mem_or_eq kept.1 hp).resolve_right own
    have unstored : Unstored (s.type t) k := unstored_of_through? r.placed r.keyed hkey fun q hq => by
      cases hp.symm.trans hq
      exact own
    obtain ⟨y, hy, out_eq⟩ :=
      (admitted_seen unstored r.run r.tidy.nodup id List.not_mem_nil).1 there p hp
    obtain ⟨z, again, same, seen⟩ := (r.lasts k there p y hp hy).of_seen hy
    rw [out_eq]
    refine ⟨z, again, fun hlast => ?_, fun _ => seen⟩
    -- the last entry decided what stands under the storage key
    have decided := (admitted_stored r.keyed r.placed found r.run r.tidy.nodup).1 k
      (r.last hp own hlast)
    rw [same, Verdict.pure_injective (hy.symm.trans decided)]

theorem clean_tidy : (cleanedEntries s t out).Tidy :=
  tidy_cleanedEntries (admitted_keys r.run r.tidy.defined_mem r.tidy).1

omit r in
theorem kept_of_mem (hk : k ∈ (cleanedEntries s t out).keys) :
    k ∈ out.keys ∧ (s.type t).keeps k = true :=
  List.mem_filter.1 (keys_cleanedEntries ▸ hk)

/-- Nothing in the clean form is refused. -/
theorem run_again : ∃ out', admitted s strict t (cleanedEntries s t out) []
    (cleanedEntries s t out) = pure out' := by
  have key_mem : ∀ {e : String × Tree}, e ∈ cleanedEntries s t out →
      e.1 ∈ (cleanedEntries s t out).keys := fun he => List.mem_map.2 ⟨_, he, rfl⟩
  refine admitted_of_stored (fun e he p hp => ?_) (fun e he none _ => ?_) _ _
  · obtain ⟨z, again, -⟩ := r.again (key_mem he) hp
    have found : (cleanedEntries s t out).get e.1 = e.2 := Entries.get_of_mem r.clean_tidy.nodup he
    exact ⟨z, found ▸ again⟩
  · have keeps := (keeps_iff.1 (kept_of_mem (key_mem he)).2).2
    rw [none] at keeps
    exact keeps

section Again

variable {out' : Entries} (run : admitted s strict t (cleanedEntries s t out) []
  (cleanedEntries s t out) = pure out')

include run

/-- What is stored then has the keys of the clean form and no others that are kept. -/
theorem keys_again :
    out'.keys.filter (s.type t).keeps = (cleanedEntries s t out).keys := by
  have tidy := r.clean_tidy
  obtain ⟨tidy', -, more, keys, source⟩ := admitted_keys run tidy.defined_mem tidy
  have all : (cleanedEntries s t out).keys.filter (s.type t).keeps =
      (cleanedEntries s t out).keys :=
    List.filter_eq_self.2 fun k hk => (kept_of_mem hk).2
  -- only reserved storage keys can be missing from the clean form
  have none : more.filter (s.type t).keeps = [] := by
    refine List.filter_eq_nil_iff.2 fun k hk keeps => ?_
    obtain ⟨e, he, p, hp, rfl⟩ := source k hk
    have there : p.storageKey ∈ (cleanedEntries s t out).keys := by
      rw [keys_cleanedEntries]
      exact List.mem_filter.2 ⟨r.storageKey_mem (kept_of_mem (List.mem_map.2 ⟨_, he, rfl⟩)).1 hp,
        keeps⟩
    have apart := tidy'.nodup
    rw [keys] at apart
    exact (List.nodup_append.1 apart).2.2 _ there _ hk rfl
  rw [keys, List.filter_append, all, none, List.append_nil]

/-- It has the trees of the clean form under them. -/
theorem get_again (hk : k ∈ (cleanedEntries s t out).keys) :
    cleaned s ((s.type t).slot? k) (out'.get k) = (cleanedEntries s t out).get k := by
  have tidy := r.clean_tidy
  have hkey := (keeps_iff.1 (kept_of_mem hk).2).1
  have others := fun unstored : Unstored (s.type t) k =>
    admitted_seen unstored run tidy.nodup id List.not_mem_nil
  rw [ModelType.slot?_eq_through?]
  cases hp : (s.type t).through? k with
  | none =>
    have unstored : Unstored (s.type t) k := unstored_of_through? r.placed r.keyed hkey
      fun p hp' => nomatch hp.symm.trans hp'
    rw [(others unstored).2 (Or.inr hp)]
    exact cleaned_none _
  | some p =>
    show cleaned s (some p.slot) (out'.get k) = _
    by_cases own : k = p.storageKey
    · obtain ⟨last, hlast⟩ := exists_lastKey? hk hp
      obtain ⟨mem, through⟩ := lastKey?_eq_some hlast
      obtain ⟨z, again, same, -⟩ := r.again mem through
      have decided := (admitted_stored r.keyed r.placed
        (ModelType.through?_eq_some.1 hp).2 run tidy.nodup).1 last hlast
      rw [get_cleanedEntries (kept_of_mem hk).2, ModelType.slot?_eq_through?, hp, own,
        ← Verdict.pure_injective (again.symm.trans decided)]
      exact same hlast
    · have unstored : Unstored (s.type t) k := unstored_of_through? r.placed r.keyed hkey
        fun q hq => by
          cases hp.symm.trans hq
          exact own
      obtain ⟨z, again, -, seen⟩ := r.again hk hp
      obtain ⟨y, hy, out_eq⟩ := (others unstored).1 hk p hp
      rw [out_eq, ← Verdict.pure_injective (again.symm.trans hy)]
      exact seen own

end Again

/-- **The clean form of a record is stored again without objection**, and what is stored has that
clean form. -/
theorem admitted_again : ∃ out', admitted s strict t (cleanedEntries s t out) []
    (cleanedEntries s t out) = pure out' ∧ cleanedEntries s t out' = cleanedEntries s t out := by
  obtain ⟨out', run⟩ := r.run_again
  exact ⟨out', run, cleanedEntries_congr r.clean_tidy.nodup (r.keys_again run)
    fun k hk => r.get_again run hk⟩

end Round

/-! ### All trees -/

/-- A container whose parts stay as they are is stored as it is, and so is its clean form. -/
theorem lasts_of_still (hx : x.isLeaf = false)
    (still : ∀ z : Tree, z.isLeaf = false → z.isArray = x.isArray → z.Still s (some q))
    (h : stored s strict q x = pure y) : Lasts s strict q y := by
  rw [stored_of_still (still x hx rfl)] at h
  obtain ⟨rfl, kind⟩ := idle_container hx h
  have container : (cleaned s (some q) y).isLeaf = false := isLeaf_cleaned.trans hx
  refine ⟨cleaned s (some q) y, ?_, cleaned_cleaned y _⟩
  rw [stored_of_still (still _ container isArray_cleaned)]
  exact kind _ container isArray_cleaned

theorem storedItems_lasts {e : Slot} {ys : List Tree} (lasts : ∀ y ∈ ys, Lasts s strict e y) :
    ∃ zs, storedItems s strict e (cleanedItems s (some e) ys) = pure zs ∧
      cleanedItems s (some e) zs = cleanedItems s (some e) ys := by
  choose! again stored same using lasts
  refine ⟨ys.map again, storedItems_pure.2 ?_, ?_⟩
  · rw [cleanedItems_eq, List.forall₂_map_left_iff, List.forall₂_map_right_iff, List.forall₂_same]
    exact stored
  · rw [cleanedItems_eq, cleanedItems_eq, List.map_map]
    exact List.map_congr_left same

/-- The clean form of what is stored without objection is stored again without objection, and what
is stored then has that clean form. -/
theorem stored_lasts (hs : s.Stratified) (keyed : s.KeyedSlot q) (hx : x.Proper)
    (h : stored s strict q x = pure y) : Lasts s strict q y := by
  induction hx generalizing q y with
  | leaf v =>
    have leaf := (stored_kind h).1
    exact ⟨y, by rw [cleaned_of_isLeaf leaf]; exact (stored_kind h).2.2 rfl, rfl⟩
  | @array xs items ih =>
    cases hi : q.items? with
    | none =>
      refine lasts_of_still rfl (fun z hz array => ?_) h
      cases z <;> first | exact hi | exact Bool.noConfusion hz | exact Bool.noConfusion array
    | some e =>
      obtain ⟨ys, hys, rfl⟩ := (stored_array_pure hi).1 h
      -- each stored item comes from an item given, which is where the induction applies
      have lasts : ∀ y ∈ ys, Lasts s strict e y := by
        intro y hy
        obtain ⟨x, hx, first⟩ := exists_of_storedItems hys hy
        exact ih x hx (keyed.element hi) first
      obtain ⟨zs, again, same⟩ := storedItems_lasts lasts
      have clean : ∀ ws, cleaned s (some q) (array ws) = array (cleanedItems s (some e) ws) :=
        fun ws => by rw [cleaned, Option.bind_some, Slot.element?_of_items? hi]
      refine ⟨array zs, ?_, by rw [clean, clean, same]⟩
      rw [clean]
      exact (stored_array_pure hi).2 ⟨zs, again, rfl⟩
  | @record es tidy fields ih =>
    cases hf : q.form? s with
    | none =>
      refine lasts_of_still rfl (fun z hz array => ?_) h
      cases z <;> first | exact hf | exact Bool.noConfusion hz | exact Bool.noConfusion array
    | some t =>
      obtain ⟨allowed, out, run, rfl⟩ := (stored_record_pure hf).1 h
      obtain ⟨out', again, same⟩ :=
        (Round.of_fields hs (keyed.model (Slot.type_of_form? hf)) tidy run
          fun e he _ _ => ih e he).admitted_again
      have clean : ∀ fs, cleaned s (some q) (record fs) = record (cleanedEntries s t fs) :=
        fun fs => by rw [cleaned, Option.bind_some, Slot.shape?_of_form? hf]
      refine ⟨record out', ?_, by rw [clean, clean, same]⟩
      rw [clean]
      exact (stored_record_pure hf).2 ⟨allowed, out', again, rfl⟩

/-- What a record is stored as without objection, once it is cleaned, is stored again without
objection, and what is stored then has that clean form. -/
theorem admitted_lasts (hs : s.Stratified) (keyed : s.Keyed (.model t))
    (proper : (record es).Proper) (run : admitted s strict t es [] es = pure out) :
    ∃ out', admitted s strict t (cleanedEntries s t out) [] (cleanedEntries s t out) = pure out' ∧
      cleanedEntries s t out' = cleanedEntries s t out := by
  obtain - | - | @⟨_, tidy, fields⟩ := proper
  exact (Round.of_fields hs keyed tidy run fun e he _ _ slot =>
    stored_lasts hs slot (fields e he)).admitted_again

end Tree

end Overlay
