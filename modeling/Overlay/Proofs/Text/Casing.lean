import Overlay.Text.UpperCase

/-!
# Upper case is final

What the upper-case mapping gives consists of characters that it leaves alone, so a text that is put
into upper case twice has changed only once. Beyond ASCII this is a property of the tables: no form
of a run lies in a run or is among the special characters. Most runs are far apart, so the tables
are compared run by run, and character by character only where the intervals meet.

* `upperCase_upperCase` : **what is in upper case stays as it is**.
-/

namespace Overlay

namespace CaseRun

variable {run other : CaseRun}

/-- The run has the character with this code. -/
def covers (run : CaseRun) (code : Nat) : Bool :=
  run.first.ble code && code.ble run.last && ((code - run.first) % run.step).beq 0

/-- The number of characters. -/
def count (run : CaseRun) : Nat := (run.last - run.first) / run.step + 1

/-- The upper-case form of the character at a place. -/
def form (run : CaseRun) (i : Nat) : Nat := (run.first + i * run.step + run.offset : Int).toNat

/-- No upper-case form is in the other run: they are all below it, or above, or each is outside. -/
def avoids (run other : CaseRun) : Bool :=
  ((run.last + run.offset).toNat + 1).ble other.first
    || (other.last + 1).ble (run.first + run.offset).toNat
    || (List.range run.count).all fun i => !other.covers (run.form i)

theorem covers_of_upper? {code code' : Nat} (h : run.upper? code = some code') :
    run.covers code = true := by
  unfold upper? at h
  split at h
  · rename_i inside
    obtain ⟨low, high, regular⟩ := inside
    simp [covers, low, high, regular]
  · cases h

theorem exists_form_of_upper? {code code' : Nat} (h : run.upper? code = some code') :
    ∃ i < run.count, run.first + i * run.step ≤ run.last ∧ code' = run.form i := by
  unfold upper? at h
  split at h
  · rename_i inside
    obtain ⟨low, high, regular⟩ := inside
    cases h
    have steps := Nat.div_add_mod (code - run.first) run.step
    rw [regular, Nat.mul_comm] at steps
    refine ⟨(code - run.first) / run.step, ?_, by omega, ?_⟩
    · exact Nat.lt_succ_of_le (Nat.div_le_div_right (by omega))
    · rw [form]
      congr 2
      omega
  · cases h

theorem covers_form_of_avoids (h : run.avoids other = true) {i : Nat} (place : i < run.count)
    (inside : run.first + i * run.step ≤ run.last) : other.covers (run.form i) = false := by
  simp only [avoids, Bool.or_eq_true, Nat.ble_eq, List.all_eq_true, List.mem_range,
    Bool.not_eq_true'] at h
  have bounds : (run.first + run.offset).toNat ≤ run.form i ∧
      run.form i ≤ (run.last + run.offset).toNat := by
    unfold form
    constructor <;> omega
  rcases h with (below | above) | apart
  · rw [Bool.eq_false_iff]
    intro covered
    simp only [covers, Bool.and_eq_true, Nat.ble_eq] at covered
    omega
  · rw [Bool.eq_false_iff]
    intro covered
    simp only [covers, Bool.and_eq_true, Nat.ble_eq] at covered
    omega
  · exact apart i place

end CaseRun

namespace CaseTable

/-- The characters that the tables change, the special ones as runs of one. -/
def changing : List CaseRun := specialUpperCase.map (fun e => ⟨e.1, e.1, 1, 0⟩) ++ caseRuns

/-- The tables leave the character with this code alone. -/
def Final (code : Nat) : Prop := ∀ run ∈ changing, run.covers code = false

theorem runs_avoid : ∀ run ∈ caseRuns, ∀ other ∈ changing, run.avoids other = true := by
  have checked : (caseRuns.all fun run => changing.all run.avoids) = true := by decide +kernel
  intro run hr other ho
  exact List.all_eq_true.1 (List.all_eq_true.1 checked run hr) other ho

theorem final_of_upper? {run : CaseRun} (hr : run ∈ caseRuns) {code code' : Nat}
    (h : run.upper? code = some code') : Final code' := by
  obtain ⟨i, place, inside, rfl⟩ := CaseRun.exists_form_of_upper? h
  exact fun other ho => CaseRun.covers_form_of_avoids (runs_avoid run hr other ho) place inside

theorem final_of_special {e : Nat × List Nat} (he : e ∈ specialUpperCase) {code : Nat}
    (hc : code ∈ e.2) : Final code := by
  have checked : ((specialUpperCase.flatMap (·.2)).eraseDups.all fun code =>
      changing.all fun run => !run.covers code) = true := by
    decide +kernel
  intro run hr
  have there : code ∈ (specialUpperCase.flatMap (·.2)).eraseDups :=
    List.mem_eraseDups.2 (List.mem_flatMap.2 ⟨e, he, hc⟩)
  simpa using List.all_eq_true.1 (List.all_eq_true.1 checked code there) run hr

end CaseTable

/-! ### Upper case -/

/-- The upper-case mapping leaves the character alone. -/
def IsUpper (c : Char) : Prop := charUpperCase c = [c]

theorem wideUpperCase_of_final {c : Char} (final : CaseTable.Final c.toNat) :
    wideUpperCase c = [c] := by
  have special : specialUpperCase.lookup c.toNat = none := by
    rw [List.lookup_eq_none_iff]
    intro e he
    have outside := final ⟨e.1, e.1, 1, 0⟩
      (List.mem_append_left _ (List.mem_map.2 ⟨e, he, rfl⟩))
    rw [bne_iff_ne]
    rintro same
    simp [CaseRun.covers, same, Nat.ble_self_eq_true] at outside
  have runs : caseRuns.findSome? (·.upper? c.toNat) = none := by
    rw [List.findSome?_eq_none_iff]
    intro run hr
    cases h : run.upper? c.toNat with
    | none => rfl
    | some code =>
      have outside := final run (List.mem_append_right _ hr)
      rw [CaseRun.covers_of_upper? h] at outside
      cases outside
  rw [wideUpperCase, special, runs]

theorem isUpper_of_final {code : Nat} (final : CaseTable.Final code) :
    IsUpper (Char.ofNat code) := by
  by_cases valid : code.isValidChar
  · have same : (Char.ofNat code).toNat = code := by
      rw [Char.ofNat, dif_pos valid]
      rfl
    unfold IsUpper charUpperCase
    split
    · have outside := final ⟨0x61, 0x7a, 1, -32⟩ (List.mem_append_right _ List.mem_cons_self)
      refine congrArg (fun d => [d]) (dif_neg ?_)
      rintro ⟨low, high⟩
      have low : 0x61 ≤ (Char.ofNat code).toNat := low
      have high : (Char.ofNat code).toNat ≤ 0x7a := high
      rw [same] at low high
      simp [CaseRun.covers, Nat.ble_eq_true_of_le low, Nat.ble_eq_true_of_le high, Nat.mod_one]
        at outside
    · exact wideUpperCase_of_final (by rwa [same])
  · have zero : Char.ofNat code = Char.ofNat 0 := by
      rw [Char.ofNat, dif_neg valid]
      rfl
    rw [zero]
    rfl

theorem isUpper_toUpper {c : Char} (ascii : c.toNat < 128) : IsUpper c.toUpper := by
  have every : ∀ n < 128, charUpperCase (Char.ofNat n).toUpper = [(Char.ofNat n).toUpper] := by
    decide +kernel
  have here := every c.toNat ascii
  rwa [Char.ofNat_toNat] at here

theorem isUpper_of_mem_charUpperCase {c d : Char} (h : d ∈ charUpperCase c) : IsUpper d := by
  unfold charUpperCase at h
  split at h
  · rename_i ascii
    rw [List.mem_singleton.1 h]
    exact isUpper_toUpper ascii
  · rename_i wide
    unfold wideUpperCase at h
    split at h
    · rename_i codes special
      obtain ⟨code, hc, rfl⟩ := List.mem_map.1 h
      obtain ⟨before, after, split, -⟩ := List.lookup_eq_some_iff.1 special
      have there : (c.toNat, codes) ∈ specialUpperCase := by
        rw [split]
        exact List.mem_append_right _ List.mem_cons_self
      exact isUpper_of_final (CaseTable.final_of_special there hc)
    · split at h
      · rename_i code found
        obtain ⟨run, hr, given⟩ := List.exists_of_findSome?_eq_some found
        rw [List.mem_singleton.1 h]
        exact isUpper_of_final (CaseTable.final_of_upper? hr given)
      · rename_i special _ none
        rw [List.mem_singleton.1 h, IsUpper, charUpperCase, if_neg wide, wideUpperCase, special,
          none]

/-- Upper case is put into upper case by leaving it. -/
theorem upperCase_upperCase (s : String) : upperCase (upperCase s) = upperCase s := by
  have fixed : ∀ cs : List Char, (∀ c ∈ cs, IsUpper c) → cs.flatMap charUpperCase = cs := by
    intro cs
    induction cs with
    | nil => exact fun _ => rfl
    | cons c cs ih =>
      intro upper
      rw [List.flatMap_cons, upper c List.mem_cons_self,
        ih fun d hd => upper d (List.mem_cons_of_mem _ hd)]
      rfl
  rw [upperCase, upperCase, String.toList_ofList, fixed]
  intro d hd
  obtain ⟨c, -, given⟩ := List.mem_flatMap.1 hd
  exact isUpper_of_mem_charUpperCase given

end Overlay
