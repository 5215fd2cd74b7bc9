import Overlay.Proofs.Engine.Runs
import Overlay.Proofs.Number.Finite

/-!
# Instants and their milliseconds

A date counts its milliseconds, rounded down, and a number of milliseconds is that of a date if the
date is supported.  Lenient coercion goes both ways.  Counts of milliseconds of dates are far below
`2 ^ 53`, so that they are numbers, and far within 64 bits, so that a count that does not fit them
is not that of a date and neither are the first and the last one that fit.

* `Instant.ofMillis?_eq_some_iff` : the instant of a count, when a second has its usual length;
* `Instant.ofMillis?_clamp64` : it is the same if the count is brought within 64 bits first;
* `Engine.coerce_lenient` : what lenient coercion makes of values of another kind;
* `Engine.dates_through_numbers` : **dates become numbers and dates again to the millisecond**, and
  every finite number becomes the date of its integer part or is invalid.
-/

namespace Overlay

namespace Instant

variable {t : Instant} {n : Int}

/-- Nanoseconds since the start of 1970. -/
def sinceEpoch (t : Instant) : Int := t.seconds * 1000000000 + t.nanos

theorem millis_eq (t : Instant) : t.millis = t.sinceEpoch / 1000000 := by
  unfold millis sinceEpoch
  omega

/-- The instants of whole milliseconds, leap seconds aside. -/
theorem ofMillis?_eq_some_iff :
    ofMillis? n = some t ↔ t.nanos < 1000000000 ∧ t.sinceEpoch = n * 1000000 := by
  unfold ofMillis? sinceEpoch
  rw [ofSeconds?_eq_some_iff]
  constructor
  · rintro ⟨seconds, nanos⟩
    omega
  · rintro ⟨regular, count⟩
    omega

/-- The counts of instants are those of the seconds that are supported. -/
theorem exists_ofMillis?_iff :
    (∃ t, ofMillis? n = some t) ↔ firstSecond * 1000 ≤ n ∧ n ≤ lastSecond * 1000 + 999 := by
  unfold ofMillis? ofSeconds?
  constructor
  · rintro ⟨t, h⟩
    split at h
    · omega
    · cases h
  · intro range
    exact ⟨_, dif_pos (by omega)⟩

theorem ofMillis?_clamp64 (n : Int) : ofMillis? (clamp64 n) = ofMillis? n := by
  by_cases fits : clamp64 n = n
  · rw [fits]
  · -- neither the count nor the one that it is brought to are those of an instant
    have outside : ∀ k : Int, k < firstSecond * 1000 ∨ lastSecond * 1000 + 999 < k →
        ofMillis? k = none := by
      intro k hk
      rw [Option.eq_none_iff_forall_ne_some]
      intro t h
      have range := exists_ofMillis?_iff.1 ⟨t, h⟩
      omega
    obtain ⟨first, last⟩ := range_eq
    unfold clamp64 at fits ⊢
    rw [first, last] at outside
    rw [outside n (by omega), outside _ (by omega)]

end Instant

namespace Engine

open Binary64 Magnitude

variable {c : Context} {st : State} {b : Builtin} {v : Value}

/-- Lenient coercion of a value of another kind converts it, and it is invalid if there is no
conversion. -/
theorem coerce_lenient (hb : b ∉ [.integer, .object, .array])
    (other : (v.isNothing || b.accepts v) = false) (lenient : st.options.strict = false) :
    coerce (.builtin b) v c st =
      match b.converted? v with
      | some w => (.ok w, st)
      | none => invalid v c st := by
  obtain ⟨d, hd⟩ := c.schema.budget_eq_succ 0
  have scalar : coerce (.builtin b) v c st = coerceScalar b v c st := by
    change Engine.perform (c.schema.budget 0) (.coerce (.builtin b) v) c st = _
    rw [hd]
    cases b with
    | integer => exact absurd (by decide) hb
    | object => exact absurd (by decide) hb
    | array => exact absurd (by decide) hb
    | _ => rfl
  rw [scalar, coerceScalar, other]
  simp only [bind_run, options, lenient, Bool.false_eq_true, if_false]
  cases b.converted? v <;> rfl

/-- The number of milliseconds of a date is a count of whole ones below `2 ^ 53`. -/
theorem coerce_date_number (t : Instant) (lenient : st.options.strict = false) :
    ∃ negative x, coerce (.builtin .number) (.date t) c st = (.ok (.number (.finite negative x)), st) ∧
      x.units < pow2 53 * unitsPerOne ∧ signedUnits negative x = t.millis * unitsPerOne := by
  obtain ⟨negative, x, exact, units⟩ := ofInt_exact t.millis_natAbs_lt
  refine ⟨negative, x, ?_, ?_, units⟩
  · rw [coerce_lenient (b := .number) (by decide) rfl lenient]
    show (Except.ok (Value.number (.ofInt t.millis)), st) = _
    rw [exact]
  · have size : x.units = t.millis.natAbs * unitsPerOne := by
      have absolute := congrArg Int.natAbs units
      rw [Int.natAbs_mul, Int.natAbs_natCast] at absolute
      rw [← absolute, signedUnits]
      split <;> simp
    rw [size]
    exact Nat.mul_lt_mul_of_pos_right t.millis_natAbs_lt (pow2_pos _)

/-- A finite number becomes the date of its integer part in milliseconds, if there is one. -/
theorem coerce_number_date (negative : Bool) (x : Magnitude) (lenient : st.options.strict = false) :
    coerce (.builtin .date) (.number (.finite negative x)) c st =
      match Instant.ofMillis? ((signedUnits negative x).tdiv unitsPerOne) with
      | some t => (.ok (.date t), st)
      | none => invalid (.number (.finite negative x)) c st := by
  have converted : Builtin.date.converted? (.number (.finite negative x)) =
      (Instant.ofMillis? ((signedUnits negative x).tdiv unitsPerOne)).map .date := by
    show ((truncate? (.finite negative x)).bind fun n => Instant.ofMillis? (Instant.clamp64 n)).map
      Value.date = _
    rw [truncate?_finite, ← Instant.ofMillis?_clamp64]
    rfl
  rw [coerce_lenient (b := .date) (by decide) rfl lenient, converted]
  cases Instant.ofMillis? ((signedUnits negative x).tdiv unitsPerOne) <;> rfl

/-- **Dates survive a trip through numbers to the millisecond.**  Lenient coercion makes a number
below `2 ^ 53` of a date, namely that of its milliseconds, rounded down; and if the date is in no
leap second, lenient coercion of that number makes the date rounded down to whole milliseconds of
it.

Of any finite number, lenient coercion makes the date that many milliseconds after the start of
1970, with the number rounded toward zero, and the number is invalid if there is no such date; it
makes no difference if it is brought within 64 bits first. -/
theorem dates_through_numbers (lenient : st.options.strict = false) :
    (∀ t : Instant, t.nanos < 1000000000 → ∃ negative x,
      coerce (.builtin .number) (.date t) c st = (.ok (.number (.finite negative x)), st) ∧
        x.units < pow2 53 * unitsPerOne ∧
        signedUnits negative x = t.sinceEpoch / 1000000 * unitsPerOne ∧
        ∃ d, coerce (.builtin .date) (.number (.finite negative x)) c st = (.ok (.date d), st) ∧
          d.nanos < 1000000000 ∧ d.sinceEpoch = t.sinceEpoch / 1000000 * 1000000) ∧
    ∀ negative x, ∃ n, n = (signedUnits negative x).tdiv unitsPerOne ∧
      Instant.ofMillis? (Instant.clamp64 n) = Instant.ofMillis? n ∧
      if Instant.firstSecond * 1000 ≤ n ∧ n ≤ Instant.lastSecond * 1000 + 999 then
        ∃ d, coerce (.builtin .date) (.number (.finite negative x)) c st = (.ok (.date d), st) ∧
          d.nanos < 1000000000 ∧ d.sinceEpoch = n * 1000000
      else
        coerce (.builtin .date) (.number (.finite negative x)) c st =
          invalid (.number (.finite negative x)) c st := by
  constructor
  · intro t regular
    obtain ⟨negative, x, number, small, units⟩ := coerce_date_number (c := c) t lenient
    refine ⟨negative, x, number, small, t.millis_eq ▸ units, ?_⟩
    have whole : (signedUnits negative x).tdiv unitsPerOne = t.millis := by
      rw [units]
      exact Int.mul_tdiv_cancel _ (Int.natCast_ne_zero.2 (Nat.ne_of_gt (pow2_pos _)))
    have range :
        Instant.firstSecond * 1000 ≤ t.millis ∧ t.millis ≤ Instant.lastSecond * 1000 + 999 := by
      have := t.inRange
      unfold Instant.millis
      omega
    obtain ⟨d, hd⟩ := Instant.exists_ofMillis?_iff.2 range
    refine ⟨d, ?_, t.millis_eq ▸ Instant.ofMillis?_eq_some_iff.1 hd⟩
    rw [coerce_number_date negative x lenient, whole, hd]
  · intro negative x
    refine ⟨_, rfl, Instant.ofMillis?_clamp64 _, ?_⟩
    rw [coerce_number_date negative x lenient]
    generalize (signedUnits negative x).tdiv unitsPerOne = n
    split
    · rename_i range
      obtain ⟨d, hd⟩ := Instant.exists_ofMillis?_iff.2 range
      exact ⟨d, by rw [hd], Instant.ofMillis?_eq_some_iff.1 hd⟩
    · rename_i outside
      cases hd : Instant.ofMillis? n with
      | none => rfl
      | some d => exact absurd (Instant.exists_ofMillis?_iff.1 ⟨d, hd⟩) outside

/-- The last nanosecond of 1969. -/
def eve : Instant := ⟨-1, 999999999, by decide⟩

/-- It is in the last millisecond before 1970, and comes back as the start of that. -/
theorem dates_through_numbers_eve : ∃ negative x d,
    coerce (.builtin .number) (.date eve) ⟨.initial, []⟩ ⟨.empty, .throwing, []⟩ =
      (.ok (.number (.finite negative x)), ⟨.empty, .throwing, []⟩) ∧
    signedUnits negative x = -1 * unitsPerOne ∧
    coerce (.builtin .date) (.number (.finite negative x)) ⟨.initial, []⟩ ⟨.empty, .throwing, []⟩ =
      (.ok (.date d), ⟨.empty, .throwing, []⟩) ∧
    d.sinceEpoch = -1000000 := by
  let st : State := ⟨.empty, .throwing, []⟩
  have lenient : st.options.strict = false := rfl
  obtain ⟨trips, -⟩ := dates_through_numbers (c := ⟨.initial, []⟩) lenient
  obtain ⟨negative, x, number, -, units, d, date, -, floor⟩ := trips eve (by decide)
  exact ⟨negative, x, d, number, units, date, floor⟩

end Engine

end Overlay
