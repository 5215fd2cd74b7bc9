import Overlay.Proofs.Engine.Footprint
import Overlay.Proofs.Engine.Outcomes
import Overlay.Proofs.Engine.Readable
import Overlay.Proofs.Engine.Recording

/-!
# Storing the elements of an array

Where a property declares elements, storing an array replaces its elements in place, one after the
other.  What becomes of an element is what would become of it if it were stored alone, with nothing
done before: no element sees what happens to the others.

* `Engine.Ends` : how a run ends that comes to a verdict, in either mode;
* `Engine.Ends.same` : runs that come to one verdict on one value end alike;
* `Engine.Loop.step`, `Engine.replaceItems_loop` : the elements, one after the other;
* `Engine.array_elementwise` : **storing an array is storing its elements**.
-/

namespace Overlay

/-- How what comes to the verdict ends: unless diagnostics are collected, the first objection stops
it. -/
def Verdict.outcome {α : Type} (V : Verdict α) (collects : Bool) : Except Error α :=
  if collects then V.result
  else
    match V.signalled with
    | [] => V.result
    | e :: _ => .error e

theorem Verdict.result_of_outcome {α : Type} {V : Verdict α} {collects : Bool} {a : α}
    (h : V.outcome collects = .ok a) : V.result = .ok a := by
  unfold outcome at h
  split at h
  · exact h
  · split at h
    · exact h
    · cases h

theorem Options.Continue.eq_of_none {before after : Options} (goes : before.Continue after)
    (none : before.diagnostics = none) : after = before := by
  obtain ⟨ds, strict, property⟩ := before
  obtain ⟨ds', strict', property'⟩ := after
  obtain ⟨hs, hp, silent, -⟩ := goes
  cases none
  cases silent rfl
  cases hs
  cases hp
  rfl

@[simp] theorem Options.collects_noting (o : Options) (es : List Error) :
    (o.noting es).collects = o.collects := by
  obtain ⟨_ | _, _, _⟩ := o <;> rfl

namespace Heap

variable {h h' : Heap} {v : Value}

/-- The value shows the same tree in both heaps, by such cells. -/
def SameTree (h h' : Heap) (P : Value → Prop) (v : Value) : Prop :=
  ∃ x, h.Shows P [v] [x] ∧ h'.Shows P [v] [x]

theorem SameTree.of_changesOnly {h'' : Heap} {P : Value → Prop} {others : List Value}
    (same : h.SameTree h' P v) (d : h'.ChangesOnly h'' others)
    (apart : ∀ u, P u → h'.Holds u ∧ u ∉ others) : h.SameTree h'' P v :=
  same.imp fun _ sh => ⟨sh.1, sh.2.of_changesOnly d apart⟩

end Heap

namespace Engine

open Heap

variable {s : Schema} {c : Context} {st st₁ st₂ : State} {α β : Type} {act : Engine α}
  {V : Verdict β} {R : α → β → Heap → Prop} {T T₁ T₂ : List Value} {p : Option Property}

/-- The run ends as the verdict says in the mode that the state is in. -/
structure Ends (st : State) (V : Verdict β) (R : α → β → Heap → Prop)
    (run : Except Fault α × State) : Prop where
  /-- What it objects to is recorded if diagnostics are collected. -/
  noted : run.2.options = st.options.noting V.signalled
  /-- It stops with the error, or has a result. -/
  result : match V.outcome st.options.collects with
    | .error e => run.1 = .error (.error e)
    | .ok b => ∃ a, run.1 = .ok a ∧ R a b run.2.heap

theorem Ends.of_ok {run : Except Fault α × State} {a : α} (ends : Ends st V R run)
    (ok : run.1 = .ok a) : ∃ b, V.outcome st.options.collects = .ok b ∧ R a b run.2.heap := by
  have result := ends.result
  cases hV : V.outcome st.options.collects with
  | error e =>
    rw [hV] at result
    cases ok.symm.trans result
  | ok b =>
    rw [hV] at result
    obtain ⟨a', ok', related⟩ := result
    cases ok.symm.trans ok'
    exact ⟨b, rfl, related⟩

theorem Ends.ok_of_outcome {run : Except Fault α × State} {b : β} (ends : Ends st V R run)
    (h : V.outcome st.options.collects = .ok b) : ∃ a, run.1 = .ok a ∧ R a b run.2.heap := by
  have result := ends.result
  rwa [h] at result

/-- A throwing run stops at the first error that is recorded, if there is one. -/
theorem ModesAgree.outcome {t k : Except Fault α × State} (agree : ModesAgree [] t k)
    (ended : t.1 ≠ .error .exhausted)
    (noted : k.2.options.diagnostics = some (V.signalled.map .recorded))
    (result : match V.result with
      | .error e => k.1 = .error (.error e)
      | .ok b => ∃ a, k.1 = .ok a ∧ R a b k.2.heap) :
    match V.outcome false with
    | .error e => t.1 = .error (.error e)
    | .ok b => ∃ a, t.1 = .ok a ∧ R a b t.2.heap := by
  have quiet : ∀ {st' : State}, (st'.collecting []).options.diagnostics =
      some (V.signalled.map .recorded) → V.outcome false = V.result := by
    intro st' h
    have none : V.signalled = [] := List.map_eq_nil_iff.1 (Option.some.inj h).symm
    rw [Verdict.outcome, if_neg Bool.false_ne_true, none]
  obtain ⟨fault | a, st'⟩ := t
  · cases fault with
    | exhausted => exact absurd rfl ended
    | error e =>
      by_cases he : e.isRecordable = true
      · obtain ⟨more, first⟩ := agree.recorded e rfl he
        obtain ⟨es, signalled⟩ : ∃ es, V.signalled = e :: es := by
          rw [noted] at first
          cases hs : V.signalled with
          | nil => rw [hs] at first; cases first
          | cons e' es => rw [hs] at first; cases first; exact ⟨es, rfl⟩
        have stops : V.outcome false = .error e := by
          rw [Verdict.outcome, if_neg Bool.false_ne_true, signalled]
        rw [stops]
      · have raised := agree.raised e rfl (Bool.eq_false_iff.2 he)
        rw [raised] at noted result
        rw [quiet noted]
        cases hV : V.result with
        | error e' => rw [hV] at result; cases result; rfl
        | ok b => rw [hV] at result; obtain ⟨a, e, -⟩ := result; cases e
  · have ok := agree.ok a rfl
    rw [ok] at noted result
    rw [quiet noted]
    cases hV : V.result with
    | error e' => rw [hV] at result; cases result
    | ok b => rw [hV] at result; exact result

/-- What comes to a verdict while diagnostics are collected ends as the verdict says in either
mode. -/
theorem Orderly.ends (ord : Orderly s p act) (hc : c.schema = s) (hp : st.options.property = p)
    (judged : ∀ st₀ : State, st₀.heap = st.heap → st₀.options.Gathers st.options.strict p →
      Judged T st₀ V R (act c st₀)) : Ends st V R (act c st) := by
  obtain ⟨ended, goes⟩ := ord.keeps hc hp
  cases hd : st.options.diagnostics with
  | some ds =>
    have collects : st.options.collects = true := by simp [Options.collects, hd]
    obtain ⟨-, noted, result⟩ := (judged st rfl ⟨collects, rfl, hp⟩).resolve_left ended
    refine ⟨noted, ?_⟩
    rw [collects]
    exact result
  | none =>
    have collects : st.options.collects = false := by simp [Options.collects, hd]
    have hand : (st.collecting []).options.property = p := hp
    obtain ⟨-, noted, result⟩ := (judged (st.collecting []) rfl ⟨rfl, rfl, hp⟩).resolve_left
      (ord.keeps hc hand).1
    replace noted : (act c (st.collecting [])).2.options.diagnostics =
        some (V.signalled.map .recorded) := by
      rw [noted]
      rfl
    refine ⟨?_, ?_⟩
    · rw [Options.noting, hd, Option.map_none, ← hd]
      exact goes.eq_of_none hd
    · rw [collects]
      exact (ord.modesAgree hc hp [] hd).outcome ended noted result

/-! ### One element -/

section Elements

variable {e q : Property} {v w w₁ w₂ : Value} {x y : Tree} {F : Value → Prop} {a : ArrayId}
  {h h₁ h₂ : Heap} {d : Nat}

theorem Settled.value_eq {q : Slot} (first : Settled s F T₁ q v x w₁ y h₁)
    (second : Settled s F T₂ q v x w₂ y h₂) : w₁ = w₂ := by
  by_cases leaf : y.isLeaf = true
  · obtain ⟨e₁, -⟩ := first.leaf leaf
    obtain ⟨e₂, -⟩ := second.leaf leaf
    exact Tree.leaf.inj (e₁.symm.trans e₂)
  · rw [first.same (Bool.eq_false_iff.2 leaf), second.same (Bool.eq_false_iff.2 leaf)]

/-- Runs that come to one verdict on one value end alike, wherever they start. -/
theorem Ends.same {q : Slot} {run₁ run₂ : Except Fault Value × State} {V : Verdict Tree}
    (first : Ends st₁ V (Settled s F T₁ q v x) run₁)
    (second : Ends st₂ V (Settled s F T₂ q v x) run₂)
    (mode : st₁.options.collects = st₂.options.collects) :
    run₁.1 = run₂.1 ∧ ∀ w, run₁.1 = .ok w →
      ∃ y, Settled s F T₁ q v x w y run₁.2.heap ∧ Settled s F T₂ q v x w y run₂.2.heap := by
  have result₁ := first.result
  have result₂ := second.result
  rw [mode] at result₁
  cases hV : V.outcome st₂.options.collects with
  | error e =>
    rw [hV] at result₁ result₂
    exact ⟨result₁.trans result₂.symm, fun w hw => by cases result₁.symm.trans hw⟩
  | ok y =>
    rw [hV] at result₁ result₂
    obtain ⟨w₁, run₁, settled₁⟩ := result₁
    obtain ⟨w₂, run₂, settled₂⟩ := result₂
    obtain rfl := settled₁.value_eq settled₂
    refine ⟨run₁.trans run₂.symm, fun w hw => ?_⟩
    cases run₁.symm.trans hw
    exact ⟨y, settled₁, settled₂⟩

/-- Storing a fresh plain tree ends as the verdict on the tree says. -/
theorem stored_ends (hs : s.Stratified) (free : s.FreeProperty e) (hc : c.schema = s)
    (deep : s.Fathoms d e)
    (o : Offered s st.heap F [some e.slot] [v] [x] T) :
    Ends st (Tree.stored s st.options.strict e.slot x) (Settled s F T e.slot v x)
      (stored (Engine.perform d) e v c st) := by
  refine (hs.stored_orderly free.calmBelow deep _ v).ends (T := T) hc rfl fun st₀ heap g => ?_
  rw [← heap] at o
  exact stored_judged c (perform_judges hs st.options.strict d) hc free g o

theorem prepared_ends (hs : s.Stratified) (free : s.FreeProperty e) (hc : c.schema = s)
    (deep : s.Fathoms d e)
    (o : Offered s st.heap F [some e.slot] [v] [x] T) :
    Ends st (Tree.stored s st.options.strict e.slot x) (Settled s F T e.slot v x)
      (prepared (Engine.perform d) e v c st) := by
  refine (hs.prepared_orderly free.calmBelow deep _ v).ends (T := T) hc rfl fun st₀ heap g => ?_
  rw [← heap] at o
  exact prepared_judged c (perform_judges hs st.options.strict d) hc free g o

theorem stored_changesOnly (hc : c.schema = s) (free : s.FreeSlot e.slot) (closed : st.heap.Closed)
    (tied : st.heap.Tied s) (hv : st.heap.Holds v) (sh : st.heap.Shows (· ∈ T) [v] [x]) (d : Nat) :
    let run := stored (Engine.perform d) e v c st
    st.heap.ChangesOnly run.2.heap T ∧ run.2.heap.Tied s ∧ run.2.heap.Closed ∧
      ∀ w, run.1 = .ok w → run.2.heap.Holds w := by
  obtain ⟨frame, closed⟩ := stored_framed hc free closed tied hv d (beyond_houses st.heap v)
    (beyond_misses st.heap v)
  exact ⟨changesOnly_of_framed frame sh, frame.tied, closed⟩

/-! ### One element after the other -/

/-- What a loop over so many elements from an index on does, given what runs of their own come to
and what they note: so many are stored, and then the loop ends. -/
structure Loop (own : Nat → Except Fault Value × State) (noted : Nat → List Error)
    (cells : List Value) (a : ArrayId) (i count : Nat) (st : State)
    (run : Except Fault Unit × State) (k : Nat) : Prop where
  /-- The array is as long as before. -/
  length : (run.2.heap.items a).length = (st.heap.items a).length
  /-- The elements that are stored are what they are when they are stored alone. -/
  stored : ∀ j, i ≤ j → j < i + k → (own j).1 = .ok (run.2.heap.item a j) ∧
    (own j).2.heap.SameTree run.2.heap (· ∈ cells) (run.2.heap.item a j)
  /-- The others are as before. -/
  rest : ∀ j, j < i ∨ i + k ≤ j → run.2.heap.item a j = st.heap.item a j
  /-- All are stored, or the next one stops the loop as it stops a run of its own. -/
  ends : (k = count ∧ run.1 = .ok () ∧
      run.2.options = st.options.noting ((List.range' i k).flatMap noted)) ∨
    (k < count ∧ ∃ fault, (own (i + k)).1 = .error fault ∧ run.1 = .error fault ∧
      run.2.options = st.options.noting ((List.range' i (k + 1)).flatMap noted))

namespace Loop

variable {own : Nat → Except Fault Value × State} {noted : Nat → List Error} {T : List Value}
  {i n k : Nat} {run : Except Fault Unit × State} {fault : Fault}

theorem stop (items : run.2.heap.items a = st.heap.items a) (alone : (own i).1 = .error fault)
    (fails : run.1 = .error fault) (options : run.2.options = st.options.noting (noted i)) :
    Loop own noted T a i (n + 1) st run 0 where
  length := congrArg _ items
  stored j hij hj := by omega
  rest j _ := by rw [Heap.item, Heap.item, items]
  ends := by
    refine Or.inr ⟨Nat.succ_pos _, fault, alone, fails, ?_⟩
    rw [options, List.range'_succ, List.flatMap_cons]
    simp

/-- The first element has been stored when the loop goes on from the next one. -/
theorem step (loop : Loop own noted T a (i + 1) n st₁ run k)
    (options : st₁.options = st.options.noting (noted i))
    (length : (st₁.heap.items a).length = (st.heap.items a).length)
    (others : ∀ j, j ≠ i → st₁.heap.item a j = st.heap.item a j)
    (alone : (own i).1 = .ok (st₁.heap.item a i))
    (same : (own i).2.heap.SameTree run.2.heap (· ∈ T) (st₁.heap.item a i)) :
    Loop own noted T a i (n + 1) st run (k + 1) where
  length := loop.length.trans length
  stored j hij hj := by
    rcases Nat.lt_or_eq_of_le hij with hij | rfl
    · exact loop.stored j hij (by omega)
    · rw [loop.rest _ (Or.inl (Nat.lt_succ_self _))]
      exact ⟨alone, same⟩
  rest j hj := by rw [loop.rest j (by omega), others j (by omega)]
  ends := by
    have all : ∀ n, st₁.options.noting ((List.range' (i + 1) n).flatMap noted) =
        st.options.noting ((List.range' i (n + 1)).flatMap noted) := by
      intro n
      rw [options, Options.noting_noting, List.range'_succ, List.flatMap_cons]
    rcases loop.ends with ⟨rfl, ok, notes⟩ | ⟨hk, fault, stop, fails, notes⟩
    · exact Or.inl ⟨rfl, ok, notes.trans (all _)⟩
    · refine Or.inr ⟨Nat.succ_lt_succ hk, fault, ?_, fails, notes.trans (all _)⟩
      rwa [Nat.add_assoc, Nat.add_comm 1 k] at stop

end Loop

/-- What runs of their own come to for the elements from an index on, from one state, and what they
note. -/
def EndAlone (s : Schema) (strict : Bool) (e : Property) (st : State) (cells : List Value)
    (own : Nat → Except Fault Value × State) (noted : Nat → List Error) (i : Nat) (vs : List Value)
    (xs : List Tree) : Prop :=
  ∀ j v x, vs[j]? = some v → xs[j]? = some x →
    noted (i + j) = (Tree.stored s strict e.slot x).signalled ∧
      ∃ T, (∀ u ∈ T, u ∈ cells) ∧ Ends st (Tree.stored s strict e.slot x)
        (Settled s (fun _ => False) T e.slot v x) (own (i + j))

theorem EndAlone.tail {strict : Bool} {own : Nat → Except Fault Value × State}
    {noted : Nat → List Error} {cells vs : List Value} {xs : List Tree} {i : Nat}
    (alone : EndAlone s strict e st cells own noted i (v :: vs) (x :: xs)) :
    EndAlone s strict e st cells own noted (i + 1) vs xs := by
  intro j v x hv hx
  rw [Nat.add_assoc, Nat.add_comm 1 j]
  exact alone (j + 1) v x hv hx

/-- The element that the loop is at is replaced in an array that is as it was, and no other one. -/
theorem Looping.replaced {F : Value → Prop} {q : Slot} {h h₁ : Heap} {ws vs T : List Value}
    {xs : List Tree} (looping : Looping s F q a ws (v :: vs) xs T h) (same : h₁.items a = h.items a)
    (w : Value) :
    (h₁.setItem a ws.length w).item a ws.length = w ∧
      ((h₁.setItem a ws.length w).items a).length = (h.items a).length ∧
      ∀ j, j ≠ ws.length → (h₁.setItem a ws.length w).item a j = h.item a j := by
  have below : ws.length < (h₁.items a).length := by
    rw [same, looping.items]
    simp
  refine ⟨?_, ?_, fun j hj => ?_⟩
  · rw [h₁.item_setItem, if_pos ⟨rfl, rfl, below⟩]
  · rw [Heap.items_setItem, if_pos rfl, List.length_set, same]
  · rw [h₁.item_setItem, if_neg fun e => hj e.2.1, Heap.item, Heap.item, same]

/-- The elements of an array are stored one after the other, each as if it were alone. -/
theorem replaceItems_loop (hs : s.Stratified) (free : s.FreeProperty e) (hc : c.schema = s)
    (deep : s.Fathoms d e)
    (own : Nat → Except Fault Value × State) (noted : Nat → List Error) {st₀ : State} {i : Nat}
    {cells ws vs : List Value} {xs : List Tree} (mode : st.options.collects = st₀.options.collects)
    (alone : EndAlone s st.options.strict e st₀ cells own noted i vs xs)
    (sub : ∀ u ∈ T, u ∈ cells) (hi : ws.length = i) (closed : st.heap.Closed)
    (tied : st.heap.Tied s) (looping : Looping s (fun _ => False) e.slot a ws vs xs T st.heap) :
    let run := replaceItems (stored (Engine.perform d) e) a i vs.length c st
    st.heap.ChangesOnly run.2.heap (.array a :: T) ∧
      ∃ k, Loop own noted cells a i vs.length st run k := by
  induction vs generalizing ws xs T st i with
  | nil =>
    exact ⟨.refl _ _, 0, rfl, fun j _ _ => by omega, fun _ _ => rfl,
      Or.inl ⟨rfl, rfl, (Options.noting_nil _).symm⟩⟩
  | cons v vs ih =>
    subst hi
    obtain - | ⟨x, xs⟩ := xs
    · cases looping.offered.laid
    obtain ⟨T₁, T₂, rfl, first, others, apart⟩ := looping.offered.split
    have out₁ : .array a ∉ T₁ := fun h => looping.out (List.mem_append_left _ h)
    obtain ⟨signalled, T₀, sub₀, lone⟩ := alone 0 v x rfl rfl
    have ended := stored_ends hs free hc deep first
    have options := ended.noted.trans (congrArg _ signalled.symm)
    obtain ⟨result, settled⟩ := ended.same lone mode
    have shown := first.shows.mono fun u hu => hu.elim False.elim id
    have hv : st.heap.Holds v := by
      refine closed (.array a) looping.held v ?_
      show v ∈ st.heap.items a
      simp [looping.items]
    obtain ⟨changes, tied₁, closed₁, there⟩ := stored_changesOnly hc free.slot closed tied hv shown d
    intro run
    have first_run : run = ((stored (Engine.perform d) e v >>= fun w =>
        changeHeap (·.setItem a ws.length w) >>= fun _ =>
          replaceItems (stored (Engine.perform d) e) a (ws.length + 1) vs.length) c st) := by
      rw [← looping.item]
      rfl
    rw [bind_run] at first_run
    rcases he : stored (Engine.perform d) e v c st with ⟨fault | w, st₁⟩
    · rw [he] at first_run changes result options
      rw [first_run]
      refine ⟨changes.mono fun u hu => Or.inl ?_, 0,
        .stop (changes.items a looping.held out₁) result.symm rfl options⟩
      exact List.mem_cons_of_mem _ (List.mem_append_left _ hu)
    · rw [he] at first_run changes result options settled tied₁ closed₁ there
      obtain ⟨y, settled, lonely⟩ := settled w rfl
      let st₂ : State := { st₁ with heap := st₁.heap.setItem a ws.length w }
      replace options : st₂.options = st.options.noting (noted ws.length) := options
      have mode₂ : st₂.options.collects = st₀.options.collects := by
        rw [options, Options.collects_noting, mode]
      have alone₂ : EndAlone s st₂.options.strict e st₀ cells own noted (ws.length + 1) vs xs := by
        rw [options]
        exact alone.tail
      have step : Step s True st₁.heap st₂.heap := .setItem a ws.length fun _ => there w rfl
      obtain ⟨later, k, loop⟩ := ih mode₂ alone₂ (fun u hu => sub u (List.mem_append_right _ hu))
        List.length_append (step.closed trivial closed₁) (step.tied tied₁)
        (looping.next first others apart changes w)
      replace first_run : run =
          replaceItems (stored (Engine.perform d) e) a (ws.length + 1) vs.length c st₂ := first_run
      rw [← first_run] at later loop
      have still := Looping.still later
      -- what the first element shows is not touched any more
      have same : (own ws.length).2.heap.SameTree run.2.heap (· ∈ cells) w := by
        refine ⟨y, lonely.shows_stored.mono fun u hu => sub₀ u (hu.elim False.elim id), ?_⟩
        exact (settled.shows_stored.of_changesOnly still
          (looping.untouched first others apart changes.grows)).mono fun u hu =>
            sub u (List.mem_append_left _ (hu.elim False.elim id))
      obtain ⟨written, length, kept⟩ := looping.replaced (changes.items a looping.held out₁) w
      refine ⟨(changes.mono fun u hu => Or.inl ?_).trans still fun u hu => Or.inl ?_, k + 1,
        loop.step options length kept (written.symm ▸ result.symm) (written.symm ▸ same)⟩
      · exact List.mem_cons_of_mem _ (List.mem_append_left _ hu)
      · exact List.cons_subset_cons _ (List.subset_append_right _ _) hu

end Elements

/-! ### Arrays -/

section Arrays

variable {e p : Property} {a : ArrayId} {d : Nat} {cells : List Value}

/-- The elements of the array are replaced one after the other. -/
def replaceAll (perform : Perform) (e : Property) (a : ArrayId) (count : Nat) : Engine Value := do
  holding [.array a] (replaceItems (stored perform e) a 0 count)
  return .array a

theorem replaceAll_run (perform : Perform) (count : Nat) (c : Context) (st : State) :
    concerning p (replaceAll perform e a count) c st =
      let run := replaceItems (stored perform e) a 0 count { c with held := [.array a] ++ c.held }
        { st with options := { st.options with property := some p } }
      (run.1.map fun _ => .array a,
        { run.2 with options := { run.2.options with property := st.options.property } }) := by
  have inner : ∀ st, replaceAll perform e a count c st =
      let run := replaceItems (stored perform e) a 0 count { c with held := [.array a] ++ c.held } st
      (run.1.map fun _ => .array a, run.2) := by
    intro st
    unfold replaceAll
    rw [bind_run]
    unfold holding
    rcases replaceItems (stored perform e) a 0 count { c with held := [.array a] ++ c.held } st with
      ⟨_ | _, _⟩ <;> rfl
  unfold concerning
  rw [inner]

/-- A property with declared elements replaces all elements of the array. -/
theorem adapt_array_run (type : p.type = .builtin .array) (he : p.elementProperty? = some e)
    (c : Context) (st : State) :
    concerning p (adapt (Engine.perform (d + 1)) p (.array a)) c st =
      concerning p (replaceAll (Engine.perform d) e a (st.heap.items a).length) c st := by
  have run : ∀ st : State, st.options.property = some p →
      adapt (Engine.perform (d + 1)) p (.array a) c st =
        replaceAll (Engine.perform d) e a (st.heap.items a).length c st := by
    intro st hand
    rw [adapt_run _ c st (fun _ h => by cases h), type]
    show coerceArray (stored (Engine.perform d)) (.array a) c st = _
    unfold coerceArray
    dsimp only
    rw [bind_run]
    dsimp only [options]
    rw [hand, Option.bind_some, he]
    rfl
  unfold concerning
  rw [run _ rfl]

/-- What becomes of one element, stored alone. -/
def alone (e : Property) (a : ArrayId) (c : Context) (st : State) (i : Nat) :
    Except Fault Value × State :=
  storedForm e (st.heap.item a i) c st

/-- The first elements, so many, are what they are when they are stored alone. -/
def StoredAlone (e : Property) (a : ArrayId) (cells : List Value) (c : Context) (st : State)
    (h : Heap) (k : Nat) : Prop :=
  ∀ i < k, (alone e a c st i).1 = .ok (h.item a i) ∧
    (alone e a c st i).2.heap.SameTree h (· ∈ cells) (h.item a i)

/-- The diagnostics that a run found. -/
def foundBy (st : State) (run : Except Fault α × State) : List Diagnostic :=
  (run.2.options.diagnostics.getD []).drop (st.options.diagnostics.getD []).length

/-- The diagnostics are what the first elements, so many, give one after the other. -/
def FoundAlone (e : Property) (a : ArrayId) (c : Context) (st : State) (o : Options)
    (k : Nat) : Prop :=
  o.diagnostics = st.options.diagnostics.map
    (· ++ (List.range k).flatMap fun i => foundBy st (alone e a c st i))

/-- The run treats an array as its elements are treated alone, from the same state. -/
structure Elementwise (e : Property) (a : ArrayId) (cells : List Value) (c : Context) (st : State)
    (run : Except Fault α × State) : Prop where
  /-- The array is as long as before. -/
  length : (run.2.heap.items a).length = (st.heap.items a).length
  /-- If there is a result, all elements are stored. -/
  ok : ∀ b, run.1 = .ok b → StoredAlone e a cells c st run.2.heap (st.heap.items a).length ∧
    FoundAlone e a c st run.2.options (st.heap.items a).length
  /-- Else there is a first one that cannot be stored, and the run stops there. -/
  error : ∀ fault, run.1 = .error fault → ∃ k < (st.heap.items a).length,
    (alone e a c st k).1 = .error fault ∧ StoredAlone e a cells c st run.2.heap k ∧
      (∀ i, k ≤ i → run.2.heap.item a i = st.heap.item a i) ∧
      FoundAlone e a c st run.2.options (k + 1)

theorem Offered.at {h : Heap} {F : Value → Prop} {q : Option Slot} {vs : List Value}
    {xs : List Tree} (o : Offered s h F (vs.map fun _ => q) vs xs T) {j : Nat} {v : Value}
    {x : Tree} (hv : vs[j]? = some v) (hx : xs[j]? = some x) :
    ∃ T', (∀ u ∈ T', u ∈ T) ∧ Offered s h F [q] [v] [x] T' := by
  induction vs generalizing xs T j with
  | nil => cases hv
  | cons w vs ih =>
    obtain - | ⟨y, xs⟩ := xs
    · cases hx
    obtain ⟨T₁, T₂, rfl, first, others, -⟩ := o.split
    cases j with
    | zero =>
      cases hv
      cases hx
      exact ⟨T₁, fun u hu => List.mem_append_left _ hu, first⟩
    | succ j =>
      obtain ⟨T', sub, o⟩ := ih others hv hx
      exact ⟨T', fun u hu => List.mem_append_right _ (sub u hu), o⟩

theorem foundBy_noting {run : Except Fault α × State} {es : List Error} {ds : List Diagnostic}
    (collects : st.options.diagnostics = some ds) (noted : run.2.options = st.options.noting es) :
    foundBy st run = es.map .recorded := by
  rw [foundBy, noted, Options.noting, collects, Option.map_some, Option.getD_some, Option.getD_some,
    List.drop_left]

/-- What the elements come to when they are stored alone, and what they note then. -/
theorem endAlone_alone (hs : s.Stratified) (free : s.FreeProperty e) (hc : c.schema = s)
    {xs : List Tree} (sub : ∀ u ∈ T, u ∈ cells)
    (o : Offered s st.heap (fun _ => False) ((st.heap.items a).map fun _ => some e.slot)
      (st.heap.items a) xs T) :
    EndAlone s st.options.strict e st cells (alone e a c st)
      (fun i => xs[i]?.elim [] fun x => (Tree.stored s st.options.strict e.slot x).signalled) 0
      (st.heap.items a) xs := by
  intro i v x hv hx
  rw [Nat.zero_add]
  dsimp only
  rw [hx]
  obtain ⟨T', sub', o⟩ := Offered.at o hv hx
  have item : st.heap.item a i = v := by
    rw [Heap.item, List.getD_eq_getElem?_getD, hv, Option.getD_some]
  have deep : s.Fathoms (s.budget e.weight) e := Schema.fathoms_of_budget (Nat.le_add_right _ 2)
  refine ⟨rfl, T', fun u hu => sub u (sub' u hu), ?_⟩
  unfold alone
  rw [item]
  subst hc
  exact stored_ends hs free rfl deep o

/-- So what they note one after the other is what they give one after the other. -/
theorem EndAlone.found {noted : Nat → List Error} {xs : List Tree} {n : Nat} {o : Options}
    (ends : EndAlone s st.options.strict e st cells (alone e a c st) noted 0 (st.heap.items a) xs)
    (length : (st.heap.items a).length = xs.length) (hn : n ≤ (st.heap.items a).length)
    (notes : o.diagnostics = (st.options.noting ((List.range' 0 n).flatMap noted)).diagnostics) :
    FoundAlone e a c st o n := by
  rw [FoundAlone, notes, Options.noting]
  cases collects : st.options.diagnostics with
  | none => rfl
  | some ds =>
    rw [Option.map_some, Option.map_some, List.map_flatMap, List.range_eq_range']
    refine congrArg (fun new => some (ds ++ new)) (List.flatMap_congr fun i hi => ?_)
    have hi : i < (st.heap.items a).length := by
      have := (List.mem_range'_1.1 hi).2
      omega
    obtain ⟨signalled, T, -, ends⟩ := ends i _ _ (List.getElem?_eq_getElem hi)
      (List.getElem?_eq_getElem (length ▸ hi))
    rw [Nat.zero_add] at signalled ends
    rw [foundBy_noting collects ends.noted, signalled]

theorem Loop.elementwise {noted : Nat → List Error} {xs : List Tree} {k : Nat} {st' : State}
    {run : Except Fault Unit × State} (heap : st'.heap = st.heap)
    (options : st'.options.diagnostics = st.options.diagnostics)
    (loop : Loop (alone e a c st) noted cells a 0 (st.heap.items a).length st' run k)
    (ends : EndAlone s st.options.strict e st cells (alone e a c st) noted 0 (st.heap.items a) xs)
    (length : (st.heap.items a).length = xs.length) (q : Option Property) :
    Elementwise e a cells c st (run.1.map fun _ => Value.array a,
      { run.2 with options := { run.2.options with property := q } }) := by
  have stored : StoredAlone e a cells c st run.2.heap k := fun i hi =>
    loop.stored i (Nat.zero_le _) (by omega)
  have notes : ∀ n, n ≤ (st.heap.items a).length →
      run.2.options = st'.options.noting ((List.range' 0 n).flatMap noted) →
        FoundAlone e a c st { run.2.options with property := q } n := by
    intro n hn h
    refine ends.found length hn ?_
    rw [h, Options.noting, Options.noting, options]
  refine ⟨?_, fun b ok => ?_, fun fault fails => ?_⟩
  · rw [← heap]
    exact loop.length
  · rcases loop.ends with ⟨rfl, -, options⟩ | ⟨-, fault, -, fails, -⟩
    · exact ⟨stored, notes _ (Nat.le_refl _) options⟩
    · rw [fails] at ok
      cases ok
  · rcases loop.ends with ⟨-, ok, -⟩ | ⟨hk, fault', stop, fails', options⟩
    · rw [ok] at fails
      cases fails
    · rw [fails'] at fails
      cases fails
      rw [Nat.zero_add] at stop
      refine ⟨k, hk, stop, stored, fun i hi => ?_, notes _ hk options⟩
      rw [← heap]
      exact loop.rest i (Or.inr (by omega))

/-- Replacing all elements treats them as they are treated alone, and changes nothing besides. -/
theorem replaceAll_elementwise (hs : s.Stratified) (free : s.FreeProperty e) {c₀ : Context}
    (hc : c.schema = s) (hc₀ : c₀.schema = s) (deep : s.Fathoms d e) (closed : st.heap.Closed)
    (tied : st.heap.Tied s) (trees : st.heap.Trees [.array a] cells)
    (nodup : cells.Nodup) (held : ∀ u ∈ cells, st.heap.Holds u) :
    Elementwise e a cells c₀ st
        (concerning p (replaceAll (Engine.perform d) e a (st.heap.items a).length) c st) ∧
      st.heap.Grows (concerning p (replaceAll (Engine.perform d) e a (st.heap.items a).length) c
        st).2.heap := by
  obtain ⟨inner, rfl, inside⟩ : ∃ inner, cells = .array a :: inner ∧
      st.heap.Trees (st.heap.items a) inner := by
    cases trees with
    | scalar plain _ => cases plain
    | array inside rest =>
      cases rest
      exact ⟨_, by rw [List.append_nil], inside⟩
  obtain ⟨out, nodup⟩ := List.nodup_cons.1 nodup
  obtain ⟨xs, o⟩ := Offered.of_trees s inside nodup (fun u hu => held u (List.mem_cons_of_mem _ hu))
    ((st.heap.items a).map fun _ => some e.slot) (List.length_map ..)
  have sub : ∀ u ∈ inner, u ∈ .array a :: inner := fun u hu => List.mem_cons_of_mem _ hu
  have ends := endAlone_alone hs free hc₀ sub o
  let st' : State := { st with options := { st.options with property := some p } }
  have heap : st'.heap = st.heap := rfl
  have mode : st'.options.collects = st.options.collects := rfl
  have tied' : st'.heap.Tied s := tied
  have looping : Looping s (fun _ => False) e.slot a [] (st.heap.items a) xs inner st'.heap :=
    ⟨held _ List.mem_cons_self, rfl, out, id, o⟩
  obtain ⟨changes, k, loop⟩ := replaceItems_loop (c := { c with held := [.array a] ++ c.held }) hs free
    hc deep _ _ mode ends sub rfl closed tied' looping
  rw [replaceAll_run]
  exact ⟨loop.elementwise heap rfl ends o.shows.length_eq _, changes.grows⟩

/-- Writing the array into a record that is no part of it makes no difference to its elements. -/
theorem Elementwise.wrote {m : ModelId} {key : String} {run : Except Fault Value × State}
    (each : Elementwise e a cells c st run) (there : ∀ u ∈ cells, run.2.heap.Holds u)
    (out : ∀ r, run.2.heap.record? m = some r → .record r ∉ cells) :
    Elementwise e a cells c st (wrote m key run) := by
  obtain ⟨fault | w, st'⟩ := run
  · exact ⟨each.length, nofun, fun fault' e => each.error fault' (by cases e; rfl)⟩
  · refine ⟨?_, fun _ _ => ?_, nofun⟩
    · dsimp only [Engine.wrote]
      cases st'.heap.record? m <;> exact each.length
    · obtain ⟨stored, notes⟩ := each.ok w rfl
      refine ⟨?_, notes⟩
      dsimp only [Engine.wrote] at *
      rcases hr : st'.heap.record? m with _ | r
      · exact stored
      · have write : st'.heap.ChangesOnly (st'.heap.insert r key w) [.record r] :=
          st'.heap.changesOnly_insert List.mem_cons_self key w
        refine fun i hi => ⟨(stored i hi).1, (stored i hi).2.of_changesOnly write fun u hu =>
          ⟨there u hu, fun h => ?_⟩⟩
        exact out r hr (List.mem_singleton.1 h ▸ hu)

theorem adapt_elementwise (hs : s.Stratified) (free : s.FreeProperty p) {c₀ : Context}
    (hc : c.schema = s) (hc₀ : c₀.schema = s) (type : p.type = .builtin .array)
    (he : p.elementProperty? = some e) (deep : s.Fathoms (d + 1) p) (closed : st.heap.Closed)
    (tied : st.heap.Tied s) (trees : st.heap.Trees [.array a] cells) (nodup : cells.Nodup)
    (held : ∀ u ∈ cells, st.heap.Holds u) :
    let run := concerning p (adapt (Engine.perform (d + 1)) p (.array a)) c st
    Elementwise e a cells c₀ st run ∧ st.heap.Grows run.2.heap ∧
      ∀ w, run.1 = .ok w → w = .array a := by
  have length := (free.calmBelow.element he).2
  rw [adapt_array_run type he]
  obtain ⟨each, grows⟩ := replaceAll_elementwise (p := p) hs (free.element he) hc hc₀
    (deep.element length) closed tied trees nodup held
  refine ⟨each, grows, fun w ok => ?_⟩
  obtain ⟨_, run, -⟩ := concerning_ok (Prod.ext ok rfl)
  obtain ⟨_, _, -, last⟩ := bind_ok run
  cases last
  rfl

/-- **Storing an array is storing its elements.**  Let a property without hooks declare elements,
and let the array be a fresh plain tree.  Storing it, for itself or in the record of a model, with
any options, gives the same array.  Its elements are replaced in place, one after the other, by what
they come to when each is stored alone, until one cannot be stored, and the diagnostics are
theirs. -/
theorem array_elementwise (hs : s.Stratified) (free : s.FreeProperty p) (hc : c.schema = s)
    (reached : st.heap.Reached s) (type : p.type = .builtin .array)
    (he : p.elementProperty? = some e) (trees : st.heap.Trees [.array a] cells)
    (nodup : cells.Nodup) (held : ∀ u ∈ cells, st.heap.Holds u) :
    (Elementwise e a cells c st (storedForm p (.array a) c st) ∧
      ∀ w, (storedForm p (.array a) c st).1 = .ok w → w = .array a) ∧
    ∀ m, st.heap.Holds (.model m) → st.heap.data m ∉ cells →
      Elementwise e a cells c st (setProperty m p (.array a) c st) ∧
        ((setProperty m p (.array a) c st).1 = .ok () → (st.heap.data m).isRecord = true →
          fieldOf (setProperty m p (.array a) c st).2.heap m p = .array a) := by
  subst hc
  constructor
  · obtain ⟨d, hd⟩ := c.schema.budget_eq_succ p.weight
    have run : storedForm p (.array a) c st =
        concerning p (adapt (Engine.perform (d + 1)) p (.array a)) c st := by
      rw [← stored_builtin type, ← hd]
      rfl
    have deep : c.schema.Fathoms (d + 1) p := Schema.fathoms_of_budget (by omega)
    rw [run]
    obtain ⟨each, -, same⟩ := adapt_elementwise (c := c) hs free rfl (rfl : c.schema = c.schema) type
      he deep reached.closed reached.tied trees nodup held
    exact ⟨each, same⟩
  · intro m there out
    let c' : Context := { c with held := [.model m] ++ c.held }
    obtain ⟨d, hd, run⟩ := setProperty_wrote free.setter m (.array a) c st
    have deep : c.schema.Fathoms (d + 1) p := Schema.fathoms_of_budget (by omega)
    rw [prepared_builtin type] at run
    rw [run]
    obtain ⟨each, grows, same⟩ := adapt_elementwise (c := c') hs free rfl (rfl : c.schema = c.schema)
      type he deep reached.closed reached.tied trees nodup held
    generalize concerning p (adapt (Engine.perform (d + 1)) p (.array a)) c' st = mid
      at each grows same
    have data' := grows.data_eq there
    refine ⟨each.wrote (fun u hu => (held u hu).grows grows) fun r hr => ?_, fun ok data => ?_⟩
    · rwa [← data_of_record? _ hr, data']
    · obtain ⟨r, data⟩ := Value.exists_of_isRecord data
      obtain ⟨fault | w, st'⟩ := mid
      · cases ok
      · obtain rfl := same w rfl
        have record := st'.heap.record?_of_data (data'.trans data)
        dsimp only [wrote]
        rw [record, Option.elim_some]
        refine fieldOf_insert (Heap.Holds.grows ?_ grows) record _
        exact data ▸ reached.closed.sealed.data there

end Arrays

/-! ### Loose pages -/

/-- A book, two pages and a scrap that lie in an array. -/
def loosePages : Heap :=
  let h := laidOut ⟨3⟩ .empty
  let h := (h.recordOf [("n", .string "5")]).2
  let h := (h.recordOf [("n", .string "6")]).2
  (h.addArray [.record ⟨1⟩, .string "torn", .record ⟨2⟩]).2

theorem loosePages_reached : loosePages.Reached bookSchema := by
  refine (((laidOut_steps ⟨3⟩ .empty (by decide +kernel)).tail (.addRecord ?_)).tail
    (.addRecord ?_)).tail (.addArray ?_)
  all_goals decide +kernel

theorem loosePages_trees :
    loosePages.Trees [.array ⟨0⟩] [.array ⟨0⟩, .record ⟨1⟩, .record ⟨2⟩] := by
  have first : loosePages.Trees (loosePages.fields ⟨1⟩).values [] :=
    show loosePages.Trees [.string "5"] [] from .scalar rfl .nil
  have second : loosePages.Trees (loosePages.fields ⟨2⟩).values [] :=
    show loosePages.Trees [.string "6"] [] from .scalar rfl .nil
  have scrap : loosePages.Trees [.string "torn", .record ⟨2⟩] [.record ⟨2⟩] :=
    .scalar rfl (.record rfl second .nil)
  have pages : loosePages.Trees (loosePages.items ⟨0⟩) [.record ⟨1⟩, .record ⟨2⟩] :=
    .record rfl first scrap
  exact .array pages .nil

/-- What is declared of the elements. -/
def eachPage : Property := ⟨"pages", "pages", .model ⟨1⟩, [], none, none, true⟩

/-- The book and the array are in use. -/
def atBinding : Context := ⟨bookSchema, [.model ⟨0⟩, .array ⟨0⟩]⟩

/-- The array becomes the pages of the book. -/
def bind (o : Options) : Except Fault Unit × State :=
  setProperty ⟨0⟩ otherPages (.array ⟨0⟩) atBinding ⟨loosePages, o, []⟩

/-- The scrap stops it, unless diagnostics are collected: then nothing is stored in its place. -/
theorem array_elementwise_pages :
    (Elementwise eachPage ⟨0⟩ [.array ⟨0⟩, .record ⟨1⟩, .record ⟨2⟩] atBinding
        ⟨loosePages, .throwing, []⟩ (bind .throwing) ∧
      (bind .throwing).1 = .error (.error (.invalidValue (some "pages") "torn"))) ∧
      Elementwise eachPage ⟨0⟩ [.array ⟨0⟩, .record ⟨1⟩, .record ⟨2⟩] atBinding
          ⟨loosePages, .collecting [], []⟩ (bind (.collecting [])) ∧
        (bind (.collecting [])).1 = .ok () ∧
          (bind (.collecting [])).2.heap.items ⟨0⟩ = [.record ⟨1⟩, .undefined, .record ⟨2⟩] := by
  have free : bookSchema.FreeProperty otherPages :=
    bookSchema_built.freeProperty bookSchema_ruleFree (show otherPages.PlainBelow 2 by decide)
      (by decide)
  have held : ∀ u ∈ [.array ⟨0⟩, .record ⟨1⟩, .record ⟨2⟩], loosePages.Holds u := by decide +kernel
  have bound : ∀ o, Elementwise eachPage ⟨0⟩ [.array ⟨0⟩, .record ⟨1⟩, .record ⟨2⟩] atBinding
      ⟨loosePages, o, []⟩ (bind o) := by
    intro o
    let st : State := ⟨loosePages, o, []⟩
    have reached : st.heap.Reached bookSchema := loosePages_reached
    have each : otherPages.elementProperty? = some eachPage := rfl
    have book : loosePages.Holds (.model ⟨0⟩) := by decide +kernel
    have out : loosePages.data ⟨0⟩ ∉ [.array ⟨0⟩, .record ⟨1⟩, .record ⟨2⟩] := by decide +kernel
    exact ((array_elementwise (c := atBinding) bookSchema_built.stratified free rfl reached rfl each
      loosePages_trees (by decide) held).2 ⟨0⟩ book out).1
  refine ⟨⟨bound .throwing, ?_⟩, bound (.collecting []), ?_⟩
  · decide +kernel
  · decide +kernel

end Engine

end Overlay
