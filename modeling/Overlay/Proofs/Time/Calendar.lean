import Overlay.Time.Calendar

/-!
# Days of the calendar

A day count and a day of the calendar are two views of a third one: the year of a cycle of 400
years, the month and the day of the month, with years and months counted from March
(`Civil.ofMarch`).

* `Civil.isValid_ofDays` : day counts are of days that exist;
* `Civil.days_ofDays` : and the days have these counts.
-/

namespace Overlay.Civil

variable {era : Int} {d y m k : Nat}

/-- The days of a cycle of 400 years before one of its years. -/
def daysBefore (year : Nat) : Nat := year * 365 + year / 4 - year / 100

/-- The days of a year before one of its months. -/
def daysBeforeMonth (month : Nat) : Nat := (153 * month + 2) / 5

/-- A day of a month, counted from zero, of a month and a year counted from March. -/
def ofMarch (era : Int) (year month day : Nat) : Civil where
  year := if month < 10 then era * 400 + year else era * 400 + year + 1
  month := if month < 10 then month + 3 else month - 9
  day := day + 1

theorem days_ofMarch (hy : y < 400) (hm : m < 12) :
    (ofMarch era y m k).days =
      era * cycleDays + (daysBefore y + daysBeforeMonth m + k : Nat) - epochShift := by
  have year : (if (ofMarch era y m k).month ≤ 2 then (ofMarch era y m k).year - 1
      else (ofMarch era y m k).year) = era * 400 + y := by
    unfold ofMarch
    split <;> dsimp only at * <;> split at * <;> omega
  have month : ((ofMarch era y m k).month + 9) % 12 = m := by
    unfold ofMarch
    dsimp only
    split <;> omega
  have cycle : (era * 400 + (y : Int)) / 400 = era := by omega
  have place : ((era * 400 + (y : Int)) % 400).toNat = y := by omega
  have day : (153 * m + 2) / 5 + (k + 1) - 1 = daysBeforeMonth m + k := by
    unfold daysBeforeMonth
    omega
  unfold days
  dsimp only
  rw [year, month, cycle, place, show (ofMarch era y m k).day = k + 1 from rfl, day, daysBefore,
    Nat.add_assoc]

/-- The year of the cycle that a day of the cycle is in.  It has a 366th day only before March of a
leap year. -/
theorem daysBefore_le (hd : d < cycleDays)
    (hy : (d - d / 1460 + d / 36524 - d / 146096) / 365 = y) :
    y < 400 ∧ daysBefore y ≤ d ∧ d - daysBefore y ≤ 365 ∧
      (d - daysBefore y = 365 → (y + 1) % 4 = 0 ∧ ((y + 1) % 100 ≠ 0 ∨ y = 399)) := by
  unfold cycleDays at hd
  unfold daysBefore
  -- only the last year of the cycle has a leap day that ends a century
  by_cases last : d = 146096
  · subst last
    subst hy
    decide
  -- day `e` of the century `c` is in its year `z`, after `k` leap days or one less
  obtain ⟨c, e, rfl, he⟩ : ∃ c e, d = 36524 * c + e ∧ e < 36524 :=
    ⟨d / 36524, d % 36524, (Nat.div_add_mod d 36524).symm, Nat.mod_lt _ (by decide)⟩
  obtain ⟨k, hk⟩ : ∃ k, (24 * c + e) / 1460 = k := ⟨_, rfl⟩
  obtain ⟨z, hz⟩ : ∃ z, (e - k) / 365 = z := ⟨_, rfl⟩
  have hc : c < 4 := by omega
  have hz' : z < 100 := by
    rcases Nat.lt_or_ge k 25 with hk' | hk' <;> omega
  have leaps : z / 4 ≤ k ∧ k ≤ z / 4 + 1 := by omega
  have fourth : (36524 * c + e) / 1460 = 25 * c + k := by omega
  have century : (36524 * c + e) / 36524 = c := by omega
  have cycle : (36524 * c + e) / 146096 = 0 := by omega
  rw [fourth, century, cycle] at hy
  obtain rfl : y = 100 * c + z := by omega
  have quarter : (100 * c + z) / 4 = 25 * c + z / 4 := by omega
  have hundredth : (100 * c + z) / 100 = c := by omega
  rw [quarter, hundredth]
  clear last hd hy fourth century cycle quarter hundredth
  refine ⟨by omega, by omega, by omega, fun h => ?_⟩
  have whole : k = z / 4 + 1 := by omega
  have leap : z % 4 = 3 := by omega
  exact ⟨by omega, Or.inl (by omega)⟩

/-- The days of a month of a year: 31, 30 or, before March, 28 or 29. -/
theorem isValid_ofMarch {e : Nat} (he : e ≤ 365) (hm : (5 * e + 2) / 153 = m)
    (hk : e - daysBeforeMonth m = k)
    (leap : e = 365 → (y + 1) % 4 = 0 ∧ ((y + 1) % 100 ≠ 0 ∨ y = 399)) :
    (ofMarch era y m k).IsValid := by
  unfold daysBeforeMonth at hk
  have hm' : m < 12 := by omega
  unfold IsValid daysInMonth ofMarch
  dsimp only
  by_cases march : m < 10
  · rw [if_pos march, if_pos march]
    refine ⟨by omega, by omega, by omega, ?_⟩
    rw [if_neg (by omega)]
    split <;> omega
  · rw [if_neg march, if_neg march]
    refine ⟨by omega, by omega, by omega, ?_⟩
    split
    · split
      · omega
      · rename_i february common
        have short : e ≠ 365 := by
          intro long
          obtain ⟨fourth, century⟩ := leap long
          refine common ?_
          simp only [isLeapYear, Bool.and_eq_true, Bool.or_eq_true, beq_iff_eq, bne_iff_ne]
          omega
        omega
    · split <;> omega

/-- What a day count is in years and months from March. -/
theorem ofDays_eq_ofMarch (n : Int) : ∃ era y m k, y < 400 ∧ m < 12 ∧
    n = era * cycleDays + (daysBefore y + daysBeforeMonth m + k : Nat) - epochShift ∧
      ofDays n = ofMarch era y m k ∧ (ofMarch era y m k).IsValid := by
  obtain ⟨d, hd⟩ : ∃ d, ((n + epochShift) % cycleDays).toNat = d := ⟨_, rfl⟩
  obtain ⟨y, hy⟩ : ∃ y, (d - d / 1460 + d / 36524 - d / 146096) / 365 = y := ⟨_, rfl⟩
  have whole : n = (n + epochShift) / cycleDays * cycleDays + d - epochShift := by
    unfold cycleDays at *
    omega
  have inside : d < cycleDays := by
    unfold cycleDays at *
    omega
  obtain ⟨hy', start, last, leap⟩ := daysBefore_le inside hy
  obtain ⟨e, he⟩ : ∃ e, d - daysBefore y = e := ⟨_, rfl⟩
  obtain ⟨m, hm⟩ : ∃ m, (5 * e + 2) / 153 = m := ⟨_, rfl⟩
  rw [he] at last leap
  have before : m < 12 ∧ daysBeforeMonth m ≤ e := by
    unfold daysBeforeMonth
    omega
  have place : 365 * y + y / 4 - y / 100 = daysBefore y := by
    unfold daysBefore
    omega
  refine ⟨(n + epochShift) / cycleDays, y, m, _, hy', before.1, ?_, ?_,
    isValid_ofMarch last hm rfl leap⟩
  · rw [show daysBefore y + daysBeforeMonth m + (e - daysBeforeMonth m) = d by omega]
    exact whole
  · unfold ofDays ofMarch
    simp only [hd, hy, place, he, hm]
    rw [Civil.mk.injEq]
    refine ⟨?_, rfl, rfl⟩
    split <;> split <;> first | rfl | omega

/-- Day counts are of days that exist. -/
theorem isValid_ofDays (n : Int) : (ofDays n).IsValid := by
  obtain ⟨era, y, m, k, -, -, -, h, valid⟩ := ofDays_eq_ofMarch n
  exact h ▸ valid

/-- The day that many days after the start of 1970 has that count. -/
theorem days_ofDays (n : Int) : (ofDays n).days = n := by
  obtain ⟨era, y, m, k, hy, hm, count, h, -⟩ := ofDays_eq_ofMarch n
  rw [h, days_ofMarch hy hm, ← count]

end Overlay.Civil
