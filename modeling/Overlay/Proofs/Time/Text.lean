import Mathlib.Algebra.Group.Nat.Defs
import Overlay.Proofs.Time.Calendar
import Overlay.Time.Printer
import Overlay.Time.Reader

/-!
# Instants read back

The interchange text of an instant has four digits for the year and two for the second, and it has
no place for less than a millisecond.  Within these limits the text denotes the instant.

* `takeNumber?_zeroPadded` : a padded number is read back;
* `Instant.parse?_isoMillis` : **the interchange text of an instant denotes it, cut to whole
  milliseconds.**
-/

namespace Overlay

/-! ### Padded numbers -/

theorem natOfDigits_toDigits (n : Nat) : natOfDigits (Nat.toDigits 10 n) = n :=
  Nat.ofDigitChars_toDigits (by decide) (by decide)

theorem natOfDigits_zeroPadded (width n : Nat) : natOfDigits (zeroPadded width n) = n := by
  have zeros : ∀ k, natOfDigits (List.replicate k '0' ++ Nat.toDigits 10 n) = n := by
    intro k
    induction k with
    | zero => exact natOfDigits_toDigits n
    | succ k ih => exact ih
  exact zeros _

theorem isDigit_of_mem_zeroPadded {width n : Nat} {c : Char} (h : c ∈ zeroPadded width n) :
    c.isDigit = true := by
  rcases List.mem_append.1 h with h | h
  · rw [(List.mem_replicate.1 h).2]
    rfl
  · exact Nat.isDigit_of_mem_toDigits (by decide) (by decide) h

theorem length_zeroPadded {width n : Nat} (hw : 0 < width) (hn : n < 10 ^ width) :
    (zeroPadded width n).length = width := by
  have := (Nat.length_toDigits_le_iff (b := 10) (by decide) hw).2 hn
  rw [zeroPadded, List.length_append, List.length_replicate]
  omega

theorem takeWhile_isDigit {ds : List Char} (h : ∀ c ∈ ds, c.isDigit = true) (rest : List Char)
    (hr : rest.head?.all fun c => !c.isDigit) :
    (ds ++ rest).takeWhile Char.isDigit = ds ∧ (ds ++ rest).dropWhile Char.isDigit = rest := by
  have stop : rest.takeWhile Char.isDigit = [] ∧ rest.dropWhile Char.isDigit = rest := by
    cases rest with
    | nil => exact ⟨rfl, rfl⟩
    | cons c rest =>
      have hc : c.isDigit = false := by simpa using hr
      simp [hc]
  rw [List.takeWhile_append_of_pos h, List.dropWhile_append_of_pos h, stop.1, stop.2,
    List.append_nil]
  exact ⟨rfl, rfl⟩

/-- A padded number is read back, whatever follows. -/
theorem takeNumber?_zeroPadded {width n : Nat} (hw : 0 < width) (hn : n < 10 ^ width)
    (rest : List Char) : takeNumber? width width (zeroPadded width n ++ rest) = some (n, rest) := by
  have length := length_zeroPadded hw hn
  have digits : (zeroPadded width n).takeWhile Char.isDigit = zeroPadded width n := by
    have := (takeWhile_isDigit (fun c (hc : c ∈ zeroPadded width n) =>
      isDigit_of_mem_zeroPadded hc) [] rfl).1
    rwa [List.append_nil] at this
  unfold takeNumber?
  dsimp only
  rw [List.take_left' length, digits, length, if_neg (Nat.lt_irrefl _), List.drop_left' length,
    natOfDigits_zeroPadded]

theorem bind_of_some {α β : Type} {x : Option α} {a : α} (h : x = some a) (next : α → Option β) :
    (x >>= next) = next a := by
  rw [h]
  rfl

/-! ### Blanks -/

theorem isBlank_of_isDigit {c : Char} (h : c.isDigit = true) : isBlank c = false := by
  have range : 48 ≤ c.toNat ∧ c.toNat ≤ 57 := by
    simp only [Char.isDigit, Bool.and_eq_true, decide_eq_true_eq] at h
    exact ⟨UInt32.le_iff_toNat_le.1 h.1, UInt32.le_iff_toNat_le.1 h.2⟩
  unfold isBlank
  dsimp only
  simp only [Bool.or_eq_false_iff, Bool.and_eq_false_iff, decide_eq_false_iff_not, beq_eq_false_iff_ne]
  omega

theorem trim_of_ends {c d : Char} {cs : List Char} (first : isBlank c = false)
    (last : isBlank d = false) :
    trim (String.ofList (c :: (cs ++ [d]))) = String.ofList (c :: (cs ++ [d])) := by
  unfold trim skipBlank
  rw [String.toList_ofList, List.dropWhile_cons_of_neg (by rw [first]; exact Bool.false_ne_true),
    List.reverse_cons, List.reverse_append, List.reverse_singleton, List.singleton_append,
    List.cons_append, List.dropWhile_cons_of_neg (by rw [last]; exact Bool.false_ne_true)]
  simp

/-! ### Timestamps -/

namespace Instant

/-- The interchange text has a place for the instant: its year has four digits, and it is a leap
second at the end of a minute only. -/
structure IsWritable (t : Instant) : Prop where
  /-- The year has four digits. -/
  year : 0 ≤ t.civil.year ∧ t.civil.year ≤ 9999
  /-- Only the last second of a minute is a leap second. -/
  leap : t.nanos < 1000000000 ∨ t.seconds % 60 = 59

instance (t : Instant) : Decidable t.IsWritable :=
  decidable_of_iff ((0 ≤ t.civil.year ∧ t.civil.year ≤ 9999) ∧
    (t.nanos < 1000000000 ∨ t.seconds % 60 = 59)) ⟨fun h => ⟨h.1, h.2⟩, fun h => ⟨h.1, h.2⟩⟩

/-- The instant cut to whole milliseconds. -/
def floorMillis (t : Instant) : Instant where
  seconds := t.seconds
  nanos := t.nanos / 1000000 * 1000000
  inRange := ⟨t.inRange.1, t.inRange.2.1,
    Nat.lt_of_le_of_lt (Nat.div_mul_le_self _ _) t.inRange.2.2⟩

variable {t : Instant}

theorem secondOfDay_lt (t : Instant) : t.secondOfDay < 86400 := by
  unfold secondOfDay
  omega

/-- The last second of a minute lasts as long as a leap second. -/
theorem IsWritable.second_le (w : t.IsWritable) :
    t.second ≤ 60 ∧ min t.second 59 = t.secondOfDay % 60 ∧
      (if t.second = 60 then t.subsecond / 1000000 * 1000000 + 1000000000
        else t.subsecond / 1000000 * 1000000) = t.nanos / 1000000 * 1000000 := by
  have range := t.inRange.2.2
  have leap := w.leap
  unfold second subsecond secondOfDay
  refine ⟨by omega, by omega, ?_⟩
  split <;> omega

end Instant

namespace Timestamp

/-- A fraction of a second that has three digits is read back in nanoseconds. -/
theorem fraction?_millis {n : Nat} (hn : n < 1000) :
    fraction? ('.' :: (zeroPadded 3 n ++ ['Z'])) = some (n * 1000000, ['Z']) := by
  have length : (zeroPadded 3 n).length = 3 := length_zeroPadded (by decide) hn
  obtain ⟨take, drop⟩ := takeWhile_isDigit
    (fun c (hc : c ∈ zeroPadded 3 n) => isDigit_of_mem_zeroPadded hc) ['Z'] rfl
  have whole : (zeroPadded 3 n ++ ['Z']).take 9 = zeroPadded 3 n ++ ['Z'] :=
    List.take_of_length_le (by rw [List.length_append, length]; decide)
  have some : (zeroPadded 3 n).isEmpty = false := by
    rw [List.isEmpty_eq_false_iff, ← List.length_pos_iff, length]
    decide
  simp only [fraction?]
  rw [whole, take, drop, some, length, natOfDigits_zeroPadded]
  rfl

/-- Padded parts are read back, and denote an instant if they are in their ranges. -/
theorem read?_padded {year month day hour minute second millis : Nat} (hy : year < 10 ^ 4)
    (hm : month < 10 ^ 2) (hd : day < 10 ^ 2) (hh : hour < 10 ^ 2) (hi : minute < 10 ^ 2)
    (hs : second < 10 ^ 2) (hf : millis < 1000) :
    read? (zeroPadded 4 year ++ '-' :: (zeroPadded 2 month ++ '-' :: (zeroPadded 2 day ++
      'T' :: (zeroPadded 2 hour ++ ':' :: (zeroPadded 2 minute ++ ':' :: (zeroPadded 2 second ++
        '.' :: (zeroPadded 3 millis ++ ['Z']))))))) =
      if (⟨year, month, day⟩ : Civil).IsValid ∧ hour ≤ 23 ∧ minute ≤ 59 ∧ second ≤ 60 then
        Instant.ofSeconds? ((⟨year, month, day⟩ : Civil).days * 86400 +
            (hour * 3600 + minute * 60 + min second 59 : Nat))
          (if second = 60 then millis * 1000000 + 1000000000 else millis * 1000000)
      else none := by
  have colon : ∀ cs, expect? ':' (':' :: cs) = some cs := fun _ => rfl
  have hyphen : ∀ cs, expect? '-' ('-' :: cs) = some cs := fun _ => rfl
  have zulu : offset? ['Z'] = some 0 := rfl
  unfold read?
  refine (bind_of_some (takeNumber?_zeroPadded (by decide) hy _) _).trans ?_
  refine (bind_of_some (hyphen _) _).trans ?_
  refine (bind_of_some (takeNumber?_zeroPadded (by decide) hm _) _).trans ?_
  refine (bind_of_some (hyphen _) _).trans ?_
  refine (bind_of_some (takeNumber?_zeroPadded (by decide) hd _) _).trans ?_
  refine (bind_of_some (show separator? ('T' :: _) = some _ from rfl) _).trans ?_
  refine (bind_of_some (takeNumber?_zeroPadded (by decide) hh _) _).trans ?_
  refine (bind_of_some (colon _) _).trans ?_
  refine (bind_of_some (takeNumber?_zeroPadded (by decide) hi _) _).trans ?_
  refine (bind_of_some (colon _) _).trans ?_
  refine (bind_of_some (takeNumber?_zeroPadded (by decide) hs _) _).trans ?_
  refine (bind_of_some (fraction?_millis hf) _).trans ?_
  refine (bind_of_some zulu _).trans ?_
  dsimp only
  rw [Int.sub_zero]

end Timestamp

namespace Instant

variable {t : Instant}

/-- The characters of a timestamp denote the instant, cut to whole milliseconds. -/
theorem read?_isoChars (w : t.IsWritable) :
    Timestamp.read? (t.isoChars ++ '.' :: (zeroPadded 3 (t.subsecond / 1000000) ++ ['Z'])) =
      some t.floorMillis := by
  obtain ⟨first, last⟩ := w.year
  obtain ⟨second, clock, nanos⟩ := w.second_le
  have valid : t.civil.IsValid := Civil.isValid_ofDays t.dayNumber
  have month : t.civil.month < 10 ^ 2 := Nat.lt_of_le_of_lt valid.2.1 (by decide)
  have day : t.civil.day < 10 ^ 2 := by
    have := valid.2.2.2
    unfold Civil.daysInMonth at this
    grind
  have hour : t.hour ≤ 23 := by
    have := t.secondOfDay_lt
    unfold hour
    omega
  have minute : t.minute ≤ 59 := by
    unfold minute
    omega
  have millis : t.subsecond / 1000000 < 1000 := by
    unfold subsecond
    omega
  simp only [isoChars, clockChars, yearChars, if_neg (Int.not_lt.2 first), if_pos last,
    List.append_assoc, List.cons_append]
  rw [Timestamp.read?_padded (by omega) month day (by omega) (by omega) (by omega) millis]
  -- what was read are the day, the time of day and the milliseconds
  have date : (⟨(t.civil.year.natAbs : Int), t.civil.month, t.civil.day⟩ : Civil) = t.civil := by
    rw [Int.natAbs_of_nonneg first]
  have time : t.hour * 3600 + t.minute * 60 + min t.second 59 = t.secondOfDay := by
    rw [clock]
    unfold Instant.hour Instant.minute
    omega
  rw [date, if_pos ⟨valid, hour, minute, second⟩, time, nanos, ofSeconds?_eq_some_iff]
  refine ⟨?_, rfl⟩
  rw [show t.civil.days = t.dayNumber from Civil.days_ofDays _]
  unfold floorMillis dayNumber secondOfDay
  dsimp only
  omega

theorem trim_isoMillis (w : t.IsWritable) : trim t.isoMillis = t.isoMillis := by
  obtain ⟨c, cs, e⟩ : ∃ c cs, zeroPadded 4 t.civil.year.natAbs = c :: cs := by
    have : (zeroPadded 4 t.civil.year.natAbs).length = 4 :=
      length_zeroPadded (by decide) (by have := w.year; omega)
    exact List.exists_cons_of_length_eq_add_one this
  have digit : c.isDigit = true :=
    isDigit_of_mem_zeroPadded (e ▸ List.mem_cons_self : c ∈ zeroPadded 4 t.civil.year.natAbs)
  unfold isoMillis isoChars yearChars
  rw [if_neg (Int.not_lt.2 w.year.1), if_pos w.year.2, e]
  simp only [List.cons_append]
  exact trim_of_ends (isBlank_of_isDigit digit) (by decide)

/-- **The interchange text of an instant denotes it, cut to whole milliseconds**, if it has a place
for it. -/
theorem parse?_isoMillis (w : t.IsWritable) : parse? t.isoMillis = some t.floorMillis := by
  unfold parse?
  dsimp only
  rw [trim_isoMillis w, isoMillis, String.toList_ofList, List.append_assoc, List.cons_append,
    read?_isoChars w]
  rfl

end Instant

end Overlay
