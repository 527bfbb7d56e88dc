import Mathlib.Data.Rat.Floor
import Mathlib.Tactic.FieldSimp
import Mathlib.Tactic.Linarith
import Mathlib.Tactic.NormNum
import QuoteBoard.Decimal

/-!
# Prices out of decimals

`Price.ofDecimal_nearest`: at the scale of an instrument a decimal becomes the nearest price,
halves going away from zero, and no price exactly when that number of ticks leaves 64 bits. So a
price comes back from its own decimal, and a larger decimal never gives a smaller price.
-/

namespace QuoteBoard

/-! ## Rounding -/

/-- The integer nearest to `q`; of two, the one further from zero. -/
def roundAway (q : ℚ) : ℤ :=
  if 0 ≤ q then round q else -round (-q)

theorem roundAway_of_nonneg {q : ℚ} (h : 0 ≤ q) : roundAway q = round q := if_pos h

theorem roundAway_neg (q : ℚ) : roundAway (-q) = -roundAway q := by
  unfold roundAway
  rcases lt_trichotomy q 0 with h | rfl | h
  · rw [if_pos (by linarith), if_neg (by linarith), neg_neg]
  · simp
  · rw [if_neg (by linarith), if_pos (by linarith), neg_neg]

theorem roundAway_intCast (n : ℤ) : roundAway n = n := by
  unfold roundAway
  split
  · exact round_intCast n
  · rw [← Int.cast_neg, round_intCast, neg_neg]

theorem roundAway_sign_mul (c : ℤ) {q : ℚ} (h : 0 ≤ q) :
    roundAway (c.sign * q) = c.sign * round q := by
  rcases lt_trichotomy c 0 with hc | rfl | hc
  · rw [Int.sign_eq_neg_one_of_neg hc]
    simp only [Int.reduceNeg, Int.cast_neg, Int.cast_one, neg_mul, one_mul, roundAway_neg,
      roundAway_of_nonneg h]
  · simp [roundAway]
  · rw [Int.sign_eq_one_of_pos hc]
    simp only [Int.cast_one, one_mul, roundAway_of_nonneg h]

theorem roundAway_eq_iff {q : ℚ} {n : ℤ} :
    roundAway q = n ↔ |q - n| < 1 / 2 ∨ |q - n| = 1 / 2 ∧ |q| < |(n : ℚ)| := by
  -- both sides turn with the sign of `q` and `n`
  wlog hq : 0 ≤ q generalizing q n
  · have h := @this (-q) (-n) (by linarith)
    rw [roundAway_neg, neg_inj] at h
    rw [h, Int.cast_neg, abs_neg, abs_neg, ← abs_neg (q - n), neg_sub, neg_sub_neg]
  rw [roundAway_of_nonneg hq, round_eq_iff, Set.mem_Ico, abs_of_nonneg hq]
  constructor
  · rintro ⟨lo, hi⟩
    rcases lo.lt_or_eq with lo | rfl
    · exact .inl (abs_lt.mpr ⟨by linarith, by linarith⟩)
    · refine .inr ⟨?_, ?_⟩
      · rw [abs_of_nonpos (by linarith)]; ring
      · exact lt_of_lt_of_le (by linarith) (le_abs_self _)
  · rintro (h | ⟨h, far⟩)
    · obtain ⟨lo, hi⟩ := abs_lt.mp h
      exact ⟨by linarith, by linarith⟩
    · have hn : 0 ≤ n := by
        by_contra neg
        have : (n : ℚ) ≤ -1 := by exact_mod_cast (by omega : n ≤ -1)
        rw [abs_of_nonneg (by linarith)] at h
        linarith
      rw [abs_of_nonneg (by exact_mod_cast hn : (0 : ℚ) ≤ n)] at far
      rw [abs_of_neg (by linarith)] at h
      exact ⟨by linarith, by linarith⟩

theorem abs_sub_roundAway (q : ℚ) : |q - roundAway q| ≤ 1 / 2 := by
  rcases roundAway_eq_iff.mp (Eq.refl (roundAway q)) with h | ⟨h, -⟩
  · exact h.le
  · exact h.le

theorem roundAway_mono {q r : ℚ} (h : q ≤ r) : roundAway q ≤ roundAway r := by
  by_contra less
  have step : (roundAway r : ℚ) + 1 ≤ roundAway q := by
    exact_mod_cast (by omega : roundAway r + 1 ≤ roundAway q)
  obtain ⟨hq, -⟩ := abs_le.mp (abs_sub_roundAway q)
  obtain ⟨-, hr⟩ := abs_le.mp (abs_sub_roundAway r)
  -- both sit on the half between the two results
  obtain rfl : q = r := by linarith
  exact less (le_refl _)

namespace Decimal

/-! ## Digits of a coefficient -/

theorem dropDigits_succ (k m d : Nat) :
    dropDigits (k + 1) (m, d) = (m / 10 ^ (k + 1), m / 10 ^ k % 10) := by
  induction k generalizing m d with
  | zero => simp [dropDigits]
  | succ k ih =>
    rw [dropDigits, ih, Nat.div_div_eq_div_mul, Nat.div_div_eq_div_mul, ← Nat.pow_succ',
      ← Nat.pow_succ']

theorem shorten_succ (k m : Nat) : shorten (k + 1) m = (m + 5 * 10 ^ k) / 10 ^ (k + 1) := by
  have pos : 0 < 10 ^ k := Nat.pow_pos (by omega)
  have carry : (m + 5 * 10 ^ k) / 10 ^ (k + 1) = (m / 10 ^ k + 5) / 10 := by
    rw [Nat.pow_succ, ← Nat.div_div_eq_div_mul, Nat.add_mul_div_right _ _ pos]
  have whole : m / 10 ^ (k + 1) = m / 10 ^ k / 10 := by
    rw [Nat.pow_succ, Nat.div_div_eq_div_mul]
  simp only [shorten, dropDigits_succ, carry, whole]
  split <;> omega

theorem shorten_eq_round (k m : Nat) : (shorten k m : ℤ) = round ((m : ℚ) / 10 ^ k) := by
  cases k with
  | zero => simp [shorten, dropDigits]
  | succ k =>
    have half : (m : ℚ) / 10 ^ (k + 1) + 1 / 2
        = ((m + 5 * 10 ^ k : ℕ) : ℚ) / ((10 ^ (k + 1) : ℕ) : ℚ) := by
      push_cast
      field_simp
      ring
    rw [round_eq, half, Rat.floor_natCast_div_natCast, shorten_succ, Int.natCast_ediv]

/-- Either all the zeros fit, or the coefficient is within one zero of `2 ^ 96`. -/
theorem lengthen_fits_or_full (k m : Nat) :
    (lengthen k m).1 = m * 10 ^ k ∨
      2 ^ 96 ≤ (lengthen k m).1 * 10 ∧ (lengthen k m).1 ≤ m * 10 ^ k := by
  induction k generalizing m with
  | zero => exact .inl (Nat.mul_one m).symm
  | succ k ih =>
    unfold lengthen
    split
    · rw [Nat.pow_succ', ← Nat.mul_assoc]
      exact ih (m * 10)
    · exact .inr ⟨by omega, Nat.le_mul_of_pos_right m (Nat.pow_pos (by omega))⟩

/-! ## Rescaling -/

def value (d : Decimal) : ℚ := d.coefficient / 10 ^ d.scale

/-- The number of ticks nearest to the value at scale `s`; scales above 28 count as 28. -/
def ticksAt (d : Decimal) (s : Nat) : ℤ := roundAway (d.value * 10 ^ min s 28)

theorem natAbs_sign_mul {c : ℤ} (h : c ≠ 0) (m : Nat) : (c.sign * m).natAbs = m := by
  rw [Int.natAbs_mul, Int.natAbs_sign_of_ne_zero h, Nat.one_mul, Int.natAbs_natCast]

theorem rescaled_of_le {c : ℤ} {s t : Nat} (h : t ≤ s) :
    (rescaled c s t).1 = roundAway (c / 10 ^ s * 10 ^ t) := by
  obtain ⟨k, rfl⟩ := Nat.exists_eq_add_of_le h
  have cancel : (c : ℚ) / 10 ^ (t + k) * 10 ^ t = c.sign * ((c.natAbs : ℚ) / 10 ^ k) := by
    have hc : (c : ℚ) = c.sign * (c.natAbs : ℚ) := by
      rw [← Int.cast_natCast, ← Int.cast_mul, Int.sign_mul_natAbs]
    rw [hc, pow_add]
    field_simp
  rw [cancel, roundAway_sign_mul c (by positivity), ← shorten_eq_round]
  unfold rescaled
  by_cases hc : c = 0
  · simp [hc]
  · rw [if_neg hc, if_pos h, Nat.add_sub_cancel_left]

/-- A coefficient that stops on the way is past every number of ticks, as is the one it should
have become. -/
theorem rescaled_of_lt {c : ℤ} {s t : Nat} (h : s < t) :
    (rescaled c s t).1 = roundAway (c / 10 ^ s * 10 ^ t) ∨
      2 ^ 96 ≤ (rescaled c s t).1.natAbs * 10 ∧
        2 ^ 96 ≤ (roundAway (c / 10 ^ s * 10 ^ t)).natAbs * 10 := by
  obtain ⟨k, rfl⟩ := Nat.exists_eq_add_of_le h.le
  have whole : (c : ℚ) / 10 ^ s * 10 ^ (s + k) = (c * 10 ^ k : ℤ) := by
    push_cast
    rw [pow_add]
    field_simp
  rw [whole, roundAway_intCast]
  unfold rescaled
  by_cases hc : c = 0
  · simp [hc]
  rw [if_neg hc, if_neg (by omega), Nat.add_sub_cancel_left, natAbs_sign_mul hc, Int.natAbs_mul,
    Int.natAbs_pow]
  rcases lengthen_fits_or_full k c.natAbs with fits | ⟨full, le⟩
  · left
    rw [fits]
    push_cast
    rw [← mul_assoc, Int.sign_mul_abs]
  · exact .inr ⟨full, le_trans full (Nat.mul_le_mul_right 10 le)⟩

end Decimal

namespace Price

/-! ## Ticks -/

theorem ofDecimal?_eq (d : Decimal) (s : Nat) :
    ofDecimal? d s =
      if -2 ^ 63 ≤ d.ticksAt s ∧ d.ticksAt s < 2 ^ 63 then some ⟨Int64.ofInt (d.ticksAt s)⟩
      else none := by
  have low : Int64.minValue.toInt = -2 ^ 63 := by decide
  have high : Int64.maxValue.toInt = 2 ^ 63 - 1 := by decide
  have moved : (d.rescale s).coefficient = d.ticksAt s ∨
      2 ^ 96 ≤ (d.rescale s).coefficient.natAbs * 10 ∧
        2 ^ 96 ≤ (d.ticksAt s).natAbs * 10 := by
    by_cases h : min s 28 ≤ d.scale
    · exact .inl (Decimal.rescaled_of_le h)
    · exact Decimal.rescaled_of_lt (by omega)
  simp only [ofDecimal?, low, high]
  rcases moved with same | ⟨past, past'⟩
  · rw [same]
    exact if_congr (by omega) rfl rfl
  · rw [if_neg (by omega), if_neg (by omega)]

theorem toInt_ticks_mem (p : Price) : -2 ^ 63 ≤ p.ticks.toInt ∧ p.ticks.toInt < 2 ^ 63 :=
  ⟨p.ticks.le_toInt, p.ticks.toInt_lt⟩

theorem ofDecimal?_eq_some_iff {d : Decimal} {s : Nat} {p : Price} :
    ofDecimal? d s = some p ↔ d.ticksAt s = p.ticks.toInt := by
  rw [ofDecimal?_eq]
  constructor
  · intro h
    split at h
    · rename_i fits
      cases h
      exact (Int64.toInt_ofInt_of_le fits.1 fits.2).symm
    · cases h
  · intro h
    rw [h, if_pos p.toInt_ticks_mem, Int64.ofInt_toInt]

theorem ofDecimal?_eq_none_iff {d : Decimal} {s : Nat} :
    ofDecimal? d s = none ↔ d.ticksAt s < -2 ^ 63 ∨ 2 ^ 63 ≤ d.ticksAt s := by
  rw [ofDecimal?_eq]
  split
  · simp only [reduceCtorEq, false_iff]
    omega
  · simp only [true_iff]
    omega

theorem ticksAt_toDecimal (p : Price) (s : Nat) : (p.toDecimal s).ticksAt s = p.ticks.toInt := by
  have whole : (p.toDecimal s).value * 10 ^ min s 28 = p.ticks.toInt :=
    div_mul_cancel₀ _ (by positivity)
  rw [Decimal.ticksAt, whole, roundAway_intCast]

/-- At scale `s`, clamped to 28, a decimal becomes the price its value rounds to, and no price
when that is not a number of ticks. A price is the one its decimal becomes, and prices keep the
order of the decimals they come from. -/
theorem ofDecimal_nearest (s : Nat) :
    (∀ (d : Decimal) (p : Price), ofDecimal? d s = some p ↔ d.ticksAt s = p.ticks.toInt) ∧
    (∀ d : Decimal, ofDecimal? d s = none ↔ d.ticksAt s < -2 ^ 63 ∨ 2 ^ 63 ≤ d.ticksAt s) ∧
    (∀ p : Price, ofDecimal? (p.toDecimal s) s = some p) ∧
    ∀ (d e : Decimal) (p q : Price), d.value ≤ e.value → ofDecimal? d s = some p →
      ofDecimal? e s = some q → p.ticks ≤ q.ticks := by
  refine ⟨fun d p => ofDecimal?_eq_some_iff, fun d => ofDecimal?_eq_none_iff, ?back, ?order⟩
  case back =>
    intro p
    exact ofDecimal?_eq_some_iff.mpr (p.ticksAt_toDecimal s)
  case order =>
    intro d e p q le hp hq
    rw [ofDecimal?_eq_some_iff] at hp hq
    rw [Int64.le_iff_toInt_le, ← hp, ← hq]
    exact roundAway_mono (mul_le_mul_of_nonneg_right le (by positivity))

example : ofDecimal? ⟨-25, 1, by decide, by decide⟩ 0 = some ⟨-3⟩ := by decide

end Price

end QuoteBoard
