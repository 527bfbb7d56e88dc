import Mathlib.Data.Nat.Log
import Mathlib.Tactic.Ring
import QuoteBoard.Binary64

/-!
# How doubles round

The magnitude nearest to a quotient is a significand of at most 53 bits at the scale of the quotient
(`units_nearestUnits`). So rounding never goes past a multiple of a power of two that is at least the
scale (`units_nearestUnits_le`, `le_units_nearestUnits`), and whole numbers below `2 ^ 53` are exact
(`units_nearest_one`).
-/

namespace QuoteBoard.Binary64

section
variable {n d k t : Nat}

theorem roundDiv_le (hd : 0 < d) (h : n ≤ k * d) : roundDiv n d ≤ k := by
  have hq : n / d ≤ k := (Nat.div_le_iff_le_mul_add_pred hd).mpr (by rw [Nat.mul_comm d]; omega)
  have hn := Nat.div_add_mod n d
  have hup : 0 < n % d → n / d + 1 ≤ k := by
    intro hr
    refine Nat.lt_of_mul_lt_mul_left (a := d) ?_
    rw [Nat.mul_comm d k]
    omega
  unfold roundDiv
  by_cases hless : 2 * (n % d) < d
  · rwa [if_pos hless]
  · rw [if_neg hless]
    have hk := hup (by omega)
    split
    · exact hk
    · split
      · exact hq
      · exact hk

theorem le_roundDiv (hd : 0 < d) (h : k * d ≤ n) : k ≤ roundDiv n d := by
  have hq : k ≤ n / d := (Nat.le_div_iff_mul_le hd).mpr h
  have hup := Nat.le_succ_of_le hq
  simp only [roundDiv]
  split
  · exact hq
  · split
    · exact hup
    · split
      · exact hq
      · exact hup

/-- The bits of a magnitude are its exponent and its significand side by side, and a significand of
`2 ^ 53` is the carry into the next exponent. -/
theorem units_layout {s r : Nat} (hr : r ≤ 2 ^ 53) (hs : s = 0 ∨ 2 ^ 52 ≤ r) :
    units (s * 0x10000000000000 + r) = r * 2 ^ s := by
  unfold units
  by_cases hsmall : r < 2 ^ 52
  · obtain rfl : s = 0 := hs.resolve_right (by omega)
    have he : (0 * 0x10000000000000 + r) / 0x10000000000000 = 0 := by omega
    have hf : (0 * 0x10000000000000 + r) % 0x10000000000000 = r := by omega
    simp only [he, hf, if_true, Nat.pow_zero, Nat.mul_one]
  · by_cases hcarry : r = 2 ^ 53
    · have he : (s * 0x10000000000000 + r) / 0x10000000000000 = s + 2 := by omega
      have hf : (s * 0x10000000000000 + r) % 0x10000000000000 = 0 := by omega
      simp only [he, hf]
      rw [if_neg (by omega), hcarry]
      show 2 ^ 52 * 2 ^ (s + 1) = 2 ^ 53 * 2 ^ s
      ring
    · have he : (s * 0x10000000000000 + r) / 0x10000000000000 = s + 1 := by omega
      have hf : 0x10000000000000 + (s * 0x10000000000000 + r) % 0x10000000000000 = r := by omega
      simp only [he, hf]
      rw [if_neg (by omega)]
      rfl

/-- How far a quotient exceeds 53 bits. -/
def scale (n d : Nat) : Nat := Nat.log2 (n / d) + 1 - 53

theorem lt_mul_of_scale (hd : 0 < d) : n < 2 ^ 53 * (d * 2 ^ scale n d) := by
  have hlog : n / d < 2 ^ (Nat.log2 (n / d) + 1) := Nat.lt_log2_self
  have hscale : n / d < 2 ^ (53 + scale n d) :=
    Nat.lt_of_lt_of_le hlog (Nat.pow_le_pow_right (by decide) (by unfold scale; omega))
  calc n < 2 ^ (53 + scale n d) * d := (Nat.div_lt_iff_lt_mul hd).mp hscale
    _ = 2 ^ 53 * (d * 2 ^ scale n d) := by ring

theorem mul_le_of_scale (hd : 0 < d) (h : scale n d ≠ 0) : 2 ^ 52 * (d * 2 ^ scale n d) ≤ n := by
  have hscale : 52 + scale n d = Nat.log2 (n / d) := by unfold scale at h ⊢; omega
  have hq : n / d ≠ 0 := by
    intro hq
    rw [hq, Nat.log2_zero] at hscale
    omega
  have hpow : 2 ^ (52 + scale n d) ≤ n / d := hscale ▸ Nat.log2_self_le hq
  calc 2 ^ 52 * (d * 2 ^ scale n d) = 2 ^ (52 + scale n d) * d := by ring
    _ ≤ n := (Nat.le_div_iff_mul_le hd).mp hpow

theorem scale_le (hd : 0 < d) (h : n < d * 2 ^ (53 + t)) : scale n d ≤ t := by
  by_contra hlt
  have hle := mul_le_of_scale hd (show scale n d ≠ 0 by omega)
  have hpow : d * 2 ^ (53 + t) ≤ d * 2 ^ (52 + scale n d) :=
    Nat.mul_le_mul_left d (Nat.pow_le_pow_right (by decide) (by omega))
  have hsame : 2 ^ 52 * (d * 2 ^ scale n d) = d * 2 ^ (52 + scale n d) := by ring
  omega

theorem units_nearestUnits (hd : 0 < d) :
    units (nearestUnits n d) = roundDiv n (d * 2 ^ scale n d) * 2 ^ scale n d := by
  have hpos : 0 < d * 2 ^ scale n d := Nat.mul_pos hd (Nat.two_pow_pos _)
  refine units_layout (roundDiv_le hpos (Nat.le_of_lt (lt_mul_of_scale hd))) ?_
  by_cases hs : scale n d = 0
  · exact .inl hs
  · exact .inr (le_roundDiv hpos (mul_le_of_scale hd hs))

theorem two_pow_scale (h : scale n d ≤ t) :
    2 ^ t = 2 ^ (t - scale n d) * 2 ^ scale n d := by
  rw [← Nat.pow_add, Nat.sub_add_cancel h]

theorem units_nearestUnits_le (hd : 0 < d) (hn : n < d * 2 ^ (53 + t)) (h : n ≤ k * 2 ^ t * d) :
    units (nearestUnits n d) ≤ k * 2 ^ t := by
  have hpos : 0 < d * 2 ^ scale n d := Nat.mul_pos hd (Nat.two_pow_pos _)
  have hsplit := two_pow_scale (scale_le hd hn)
  rw [units_nearestUnits hd, hsplit, ← Nat.mul_assoc]
  refine Nat.mul_le_mul_right _ (roundDiv_le hpos (h.trans_eq ?_))
  rw [hsplit]
  ring

theorem le_units_nearestUnits (hd : 0 < d) (hn : n < d * 2 ^ (53 + t)) (h : k * 2 ^ t * d ≤ n) :
    k * 2 ^ t ≤ units (nearestUnits n d) := by
  have hpos : 0 < d * 2 ^ scale n d := Nat.mul_pos hd (Nat.two_pow_pos _)
  have hsplit := two_pow_scale (scale_le hd hn)
  rw [units_nearestUnits hd, hsplit, ← Nat.mul_assoc]
  refine Nat.mul_le_mul_right _ (le_roundDiv hpos (Nat.le_trans (Nat.le_of_eq ?_) h))
  rw [hsplit]
  ring

theorem units_nearestUnits_mul (h : n < 2 ^ 53) : units (nearestUnits (n * 2 ^ t) 1) = n * 2 ^ t := by
  have hn : n * 2 ^ t < 1 * 2 ^ (53 + t) := by
    rw [Nat.one_mul, Nat.pow_add]
    exact Nat.mul_lt_mul_of_pos_right h (Nat.two_pow_pos _)
  apply Nat.le_antisymm
  · exact units_nearestUnits_le Nat.one_pos hn (by rw [Nat.mul_one])
  · exact le_units_nearestUnits Nat.one_pos hn (by rw [Nat.mul_one])

theorem exists_one_eq : ∃ t, one = 2 ^ t := ⟨1074, by decide +kernel⟩

theorem one_pos : 0 < one := by
  obtain ⟨t, ht⟩ := exists_one_eq
  exact ht ▸ Nat.two_pow_pos t

theorem units_nearest_one (h : n < 2 ^ 53) : units (nearest n 1) = n * one := by
  obtain ⟨t, ht⟩ := exists_one_eq
  unfold nearest
  rw [ht, units_nearestUnits_mul h]

theorem ceil_le_iff {c : Nat} : ceil c ≤ k ↔ units c ≤ k * one := by
  unfold ceil
  rw [Nat.div_le_iff_le_mul_add_pred one_pos, Nat.mul_comm one k]
  have := one_pos
  omega

/-! ## Products with whole numbers -/

variable {c e m : Nat}

theorem units_mul_le (he : units e = n * one) (hn : units c * n < 2 ^ (53 + t))
    (h : units c * n ≤ k * 2 ^ t) : units (mul c e) ≤ k * 2 ^ t := by
  unfold mul
  rw [he, ← Nat.mul_assoc]
  refine units_nearestUnits_le one_pos ?_ (Nat.mul_le_mul_right _ h)
  rw [Nat.mul_comm]
  exact Nat.mul_lt_mul_of_pos_left hn one_pos

theorem le_units_mul (he : units e = n * one) (hn : units c * n < 2 ^ (53 + t))
    (h : k * 2 ^ t ≤ units c * n) : k * 2 ^ t ≤ units (mul c e) := by
  unfold mul
  rw [he, ← Nat.mul_assoc]
  refine le_units_nearestUnits one_pos ?_ (Nat.mul_le_mul_right _ h)
  rw [Nat.mul_comm]
  exact Nat.mul_lt_mul_of_pos_left hn one_pos

variable {a : Nat}

theorem units_mul_lt (hc : units c = m * 2 ^ a) (hsize : m * n < 2 ^ 63) :
    units c * n < 2 ^ (53 + (a + 10)) := by
  calc units c * n = m * n * 2 ^ a := by rw [hc]; ring
    _ < 2 ^ 63 * 2 ^ a := Nat.mul_lt_mul_of_pos_right hsize (Nat.two_pow_pos a)
    _ = 2 ^ (53 + (a + 10)) := by ring

section
variable (ha : one = 2 ^ (a + 53)) (hc : units c = m * 2 ^ a) (he : units e = n * one)
  (hsize : m * n < 2 ^ 63)
include ha hc he hsize

theorem ceil_mul_le (h : m * n ≤ k * 2 ^ 53) : ceil (mul c e) ≤ k := by
  rw [ceil_le_iff, ha]
  refine units_mul_le he ((units_mul_lt hc hsize).trans_le ?_) ?_
  · exact Nat.pow_le_pow_right (by decide) (by omega)
  · calc units c * n = m * n * 2 ^ a := by rw [hc]; ring
      _ ≤ k * 2 ^ 53 * 2 ^ a := Nat.mul_le_mul_right _ h
      _ = k * 2 ^ (a + 53) := by ring

theorem lt_ceil_mul (h : k * 2 ^ 53 + 2 ^ 10 ≤ m * n) : k < ceil (mul c e) := by
  rw [← Nat.not_le, ceil_le_iff, ha, Nat.not_le]
  calc k * 2 ^ (a + 53) < k * 2 ^ (a + 53) + 2 ^ (a + 10) :=
        Nat.lt_add_of_pos_right (Nat.two_pow_pos _)
    _ = (k * 2 ^ 43 + 1) * 2 ^ (a + 10) := by ring
    _ ≤ units (mul c e) := by
      refine le_units_mul he (units_mul_lt hc hsize) ?_
      calc (k * 2 ^ 43 + 1) * 2 ^ (a + 10) = (k * 2 ^ 53 + 2 ^ 10) * 2 ^ a := by ring
        _ ≤ m * n * 2 ^ a := Nat.mul_le_mul_right _ h
        _ = units c * n := by rw [hc]; ring

end

end

end QuoteBoard.Binary64
