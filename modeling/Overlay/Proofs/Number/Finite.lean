import Mathlib.Algebra.Group.Nat.Defs
import Overlay.Number.Binary64
import Overlay.Time.Instant

/-!
# Finite numbers

Rounding has a result for every count of units below `2 ^ 2096`, and the result is exact if 53 bits
are enough for the count.  The milliseconds of an instant are far below, so that they are a finite
number.

* `Magnitude.round?_isSome` : the count has a nearest magnitude;
* `Binary64.ofInt_exact` : integers below `2 ^ 53` are numbers of the format;
* `Binary64.truncate?_finite` : the integer part is the quotient toward zero;
* `Instant.isFinite_millis` : instants count a finite number of milliseconds.
-/

namespace Overlay

theorem pow2_eq (n : Nat) : pow2 n = 2 ^ n := rfl

theorem pow2_add (m n : Nat) : pow2 (m + n) = pow2 m * pow2 n := Nat.pow_add 2 m n

theorem pow2_pos (n : Nat) : 0 < pow2 n := Nat.two_pow_pos n

/-- The nearest quotient is the quotient or the next number. -/
theorem divNearest_cases (a b : Nat) : divNearest a b = a / b ∨ divNearest a b = a / b + 1 := by
  unfold divNearest
  dsimp only
  split
  · exact Or.inl rfl
  · exact Or.inr rfl
  · split
    · exact Or.inl rfl
    · exact Or.inr rfl

theorem divNearest_mul (a : Nat) {b : Nat} (hb : 0 < b) : divNearest (a * b) b = a := by
  have below : compare (2 * 0) b = .lt := Nat.compare_eq_lt.2 hb
  unfold divNearest
  rw [Nat.mul_mod_left, Nat.mul_div_cancel a hb, below]

theorem log2_mul_pow2 {m : Nat} (hm : m ≠ 0) (q : Nat) : (m * pow2 q).log2 = m.log2 + q := by
  have first := Nat.mul_le_mul_right (pow2 q) (Nat.log2_self_le hm)
  have last := Nat.mul_lt_mul_of_pos_right (Nat.lt_log2_self (n := m)) (pow2_pos q)
  rw [← pow2_eq, ← pow2_add] at first last
  refine (Nat.log2_eq_iff (Nat.mul_ne_zero hm (Nat.ne_of_gt (pow2_pos q)))).2 ⟨first, ?_⟩
  rwa [Nat.add_right_comm]

theorem divNearest_one (a : Nat) : divNearest a 1 = a := by
  simpa using divNearest_mul a Nat.one_pos

namespace Magnitude

/-- The count of units has a nearest magnitude. -/
theorem round?_isSome {n k : Nat} (hk : k ≤ 2096) (h : n < pow2 k) :
    (round? n 1).isSome = true := by
  have some : ∀ {m e : Nat}, m < pow2 53 ∧ e ≤ 2045 ∧ (e = 0 ∨ pow2 52 ≤ m) →
      (canonical? m e).isSome = true := fun hc => by
    unfold canonical?
    rw [dif_pos hc]
    rfl
  unfold round?
  dsimp only
  rw [Nat.div_one, Nat.one_mul]
  by_cases small : n < pow2 53
  · rw [if_pos small, show pow2 0 = 1 from rfl, divNearest_one, if_neg (Nat.ne_of_lt small)]
    exact some ⟨small, Nat.zero_le _, Or.inl rfl⟩
  · rw [if_neg small]
    rw [pow2_eq, Nat.not_lt] at small
    -- the quotient by this power of two has 53 bits
    have pos : n ≠ 0 := by
      have := pow2_pos 53
      rw [pow2_eq] at this
      omega
    have low : 53 ≤ n.log2 := (Nat.le_log2 pos).2 small
    have high : n.log2 < k := (Nat.log2_lt pos).2 h
    obtain ⟨e, he⟩ : ∃ e, n.log2 - 52 = e := ⟨_, rfl⟩
    have bits : n.log2 = 52 + e := by omega
    have first : pow2 52 ≤ n / pow2 e := by
      rw [Nat.le_div_iff_mul_le (pow2_pos e), ← pow2_add, ← bits]
      exact Nat.log2_self_le pos
    have last : n / pow2 e < pow2 53 := by
      rw [Nat.div_lt_iff_lt_mul (pow2_pos e), ← pow2_add,
        show 53 + e = n.log2 + 1 by omega]
      exact Nat.lt_log2_self
    rw [he]
    have near := divNearest_cases n (pow2 e)
    generalize divNearest n (pow2 e) = m at near
    split
    · exact some ⟨by decide, by omega, Or.inr (Nat.le_refl _)⟩
    · exact some ⟨by omega, by omega, Or.inr (by omega)⟩

/-- What has 53 bits, and zeros after them, is rounded to itself. -/
theorem round?_exact {m q : Nat} (hm : m < pow2 53) (hq : q ≤ 2045) :
    ∃ x, round? (m * pow2 q) 1 = some x ∧ x.units = m * pow2 q := by
  -- the count is a mantissa of 53 bits, or of fewer at the smallest exponent, times a power of two
  have made : ∀ {e k : Nat}, (if m * pow2 q < pow2 53 then 0 else Nat.log2 (m * pow2 q) - 52) = e →
      m * pow2 q = k * pow2 e → k < pow2 53 → e ≤ 2045 → (e = 0 ∨ pow2 52 ≤ k) →
        ∃ x, round? (m * pow2 q) 1 = some x ∧ x.units = m * pow2 q := by
    intro e k he hk bits small long
    refine ⟨⟨k, e, bits, small, long⟩, ?_, hk.symm⟩
    unfold round?
    dsimp only
    rw [Nat.div_one, he, Nat.one_mul, hk, divNearest_mul k (pow2_pos e),
      if_neg (Nat.ne_of_lt bits), canonical?_eq_some_iff]
    exact ⟨rfl, rfl⟩
  by_cases small : m * pow2 q < pow2 53
  · exact made (if_pos small) (Nat.mul_one _).symm small (Nat.zero_le _) (Or.inl rfl)
  · have pos : m ≠ 0 := by
      rintro rfl
      rw [Nat.zero_mul] at small
      exact small (pow2_pos 53)
    have short : m.log2 < 53 := (Nat.log2_lt pos).2 hm
    have length := log2_mul_pow2 pos q
    have long : 53 ≤ (m * pow2 q).log2 :=
      (Nat.le_log2 (Nat.mul_ne_zero pos (Nat.ne_of_gt (pow2_pos q)))).2 (Nat.le_of_not_lt small)
    -- the mantissa is filled up to 53 bits
    obtain ⟨k, hk⟩ : ∃ k, k = 52 - m.log2 := ⟨_, rfl⟩
    have filled := log2_mul_pow2 pos k
    rw [show m.log2 + k = 52 by omega,
      Nat.log2_eq_iff (Nat.mul_ne_zero pos (Nat.ne_of_gt (pow2_pos k)))] at filled
    refine made (e := q - k) (k := m * pow2 k) ?_ ?_ filled.2 (by omega) (Or.inr filled.1)
    · rw [if_neg small, length]
      omega
    · rw [Nat.mul_assoc, ← pow2_add, show k + (q - k) = q by omega]

end Magnitude

namespace Binary64

/-- An integer below `2 ^ 53` is a number of the format. -/
theorem ofInt_exact {n : Int} (h : n.natAbs < pow2 53) : ∃ negative x,
    ofInt n = .finite negative x ∧ signedUnits negative x = n * Magnitude.unitsPerOne := by
  obtain ⟨x, hx, units⟩ := Magnitude.round?_exact (q := 1074) h (by decide)
  refine ⟨decide (n < 0), x, ?_, ?_⟩
  · unfold ofInt Magnitude.ofNat?
    exact congrArg _ hx
  · unfold signedUnits
    rw [units, Int.natCast_mul]
    by_cases neg : n < 0
    · rw [if_pos (decide_eq_true neg), ← Int.neg_mul, Int.ofNat_natAbs_of_nonpos (by omega),
        Int.neg_neg]
      rfl
    · rw [if_neg (by simpa using neg), Int.natAbs_of_nonneg (by omega)]
      rfl

/-- The integer part is the number of ones in the signed count of units, toward zero. -/
theorem truncate?_finite (negative : Bool) (x : Magnitude) :
    truncate? (.finite negative x) =
      some ((signedUnits negative x).tdiv Magnitude.unitsPerOne) := by
  cases negative with
  | false => rfl
  | true =>
    rw [signedUnits, if_pos rfl, Int.neg_tdiv]
    rfl

theorem isFinite_ofInt {n : Int} {k : Nat} (hk : k ≤ 1022) (h : n.natAbs < pow2 k) :
    (ofInt n).isFinite = true := by
  have units : n.natAbs * Magnitude.unitsPerOne < pow2 (k + 1074) := by
    rw [pow2_add]
    exact Nat.mul_lt_mul_of_pos_right h (pow2_pos _)
  obtain ⟨x, hx⟩ := Option.isSome_iff_exists.1 (Magnitude.round?_isSome (by omega) units)
  unfold ofInt Magnitude.ofNat?
  rw [hx]
  rfl

theorem isIntegral_zero : zero.isIntegral = true := by
  simp [zero, isIntegral, Magnitude.isIntegral]

theorem isFinite_of_isIntegral {x : Binary64} (h : x.isIntegral = true) : x.isFinite = true := by
  cases x <;> first | rfl | cases h

end Binary64

namespace Instant

theorem range_eq : firstSecond = -8334601228800 ∧ lastSecond = 8210266876799 := by decide

theorem millis_natAbs_lt (t : Instant) : t.millis.natAbs < pow2 53 := by
  obtain ⟨first, last⟩ := range_eq
  have range := t.inRange
  rw [first, last] at range
  rw [show pow2 53 = 9007199254740992 from rfl]
  unfold millis
  omega

/-- The milliseconds of an instant are a finite number. -/
theorem isFinite_millis (t : Instant) : (Binary64.ofInt t.millis).isFinite = true :=
  Binary64.isFinite_ofInt (k := 53) (by decide) t.millis_natAbs_lt

end Instant

end Overlay
