import QuoteBoard.Price

/-!
# Exact decimals

A decimal is a coefficient below `2 ^ 96` in absolute value over a power of ten up to `10 ^ 28`.
`rescale` moves it to another scale: fewer digits round half away from zero, more digits multiply
by ten for as long as the coefficient has room. `Price.toDecimal` and `Price.ofDecimal?` carry
prices into decimals and back.
-/

namespace QuoteBoard

/-- The value `coefficient / 10 ^ scale`. -/
structure Decimal where
  coefficient : Int
  scale : Nat
  coefficient_lt : coefficient.natAbs < 0x1000000000000000000000000
  scale_le : scale ≤ 28

namespace Decimal

/-! ## Digits of a coefficient -/

/-- Drops `k` digits, and keeps the last one dropped. -/
def dropDigits : Nat → Nat × Nat → Nat × Nat
  | 0, p => p
  | k + 1, (m, _) => dropDigits k (m / 10, m % 10)

/-- Drops `k` digits and rounds by the last one dropped, five and more upwards. -/
def shorten (k m : Nat) : Nat :=
  let p := dropDigits k (m, 0)
  if 5 ≤ p.2 then p.1 + 1 else p.1

/-- Appends up to `k` zeros while the result stays below `2 ^ 96`; also says how many found no
room. -/
def lengthen : Nat → Nat → Nat × Nat
  | 0, m => (m, 0)
  | k + 1, m => if m * 10 < 0x1000000000000000000000000 then lengthen k (m * 10) else (m, k + 1)

theorem dropDigits_digit_le (k m d : Nat) (h : 0 < k) :
    (dropDigits k (m, d)).1 * 10 + (dropDigits k (m, d)).2 ≤ m := by
  induction k generalizing m d with
  | zero => omega
  | succ k ih =>
    cases k with
    | zero => simp only [dropDigits]; omega
    | succ k => have := ih (m / 10) (m % 10) (by omega); simp only [dropDigits] at this ⊢; omega

theorem shorten_le (k m : Nat) : shorten k m ≤ m := by
  unfold shorten
  cases k with
  | zero => simp [dropDigits]
  | succ k =>
    have := dropDigits_digit_le (k + 1) m 0 (by omega)
    dsimp only
    split <;> omega

theorem lengthen_lt (k m : Nat) (h : m < 0x1000000000000000000000000) :
    (lengthen k m).1 < 0x1000000000000000000000000 := by
  induction k generalizing m with
  | zero => exact h
  | succ k ih =>
    unfold lengthen
    split
    · exact ih _ (by assumption)
    · exact h

/-! ## Rescaling -/

def rescaled (c : Int) (s t : Nat) : Int × Nat :=
  if c = 0 then (0, t)
  else if t ≤ s then (c.sign * shorten (s - t) c.natAbs, t)
  else (c.sign * (lengthen (t - s) c.natAbs).1, t - (lengthen (t - s) c.natAbs).2)

theorem natAbs_sign_mul_le (c : Int) (m : Nat) : (c.sign * m).natAbs ≤ m := by
  rw [Int.natAbs_mul, Int.natAbs_natCast]
  calc c.sign.natAbs * m ≤ 1 * m := Nat.mul_le_mul_right m (by
        rcases Int.lt_trichotomy c 0 with h | h | h
        · simp [Int.sign_eq_neg_one_of_neg h]
        · simp [h]
        · simp [Int.sign_eq_one_of_pos h])
    _ = m := Nat.one_mul m

theorem rescaled_lt (c : Int) (s t : Nat) (h : c.natAbs < 0x1000000000000000000000000) :
    (rescaled c s t).1.natAbs < 0x1000000000000000000000000 := by
  unfold rescaled
  split
  · exact Nat.succ_pos _
  · split
    · exact Nat.lt_of_le_of_lt (Nat.le_trans (natAbs_sign_mul_le _ _) (shorten_le _ _)) h
    · exact Nat.lt_of_le_of_lt (natAbs_sign_mul_le _ _) (lengthen_lt _ _ h)

theorem rescaled_scale_le (c : Int) (s t : Nat) (h : t ≤ 28) : (rescaled c s t).2 ≤ 28 := by
  unfold rescaled
  split
  · exact h
  · split
    · exact h
    · exact Nat.le_trans (Nat.sub_le _ _) h

/-- Moves to scale `s`, at most 28; a coefficient that cannot grow that far stops on the way. -/
def rescale (d : Decimal) (s : Nat) : Decimal where
  coefficient := (rescaled d.coefficient d.scale (min s 28)).1
  scale := (rescaled d.coefficient d.scale (min s 28)).2
  coefficient_lt := rescaled_lt _ _ _ d.coefficient_lt
  scale_le := rescaled_scale_le _ _ _ (Nat.min_le_right _ _)

/-! ## Printed form -/

def padded (width : Nat) (digits : List Char) : List Char :=
  List.replicate (width - digits.length) '0' ++ digits

def label (d : Decimal) : String :=
  let digits := padded (d.scale + 1) (Nat.toDigits 10 d.coefficient.natAbs)
  let whole := digits.take (digits.length - d.scale)
  let fraction := digits.drop (digits.length - d.scale)
  let sign := if d.coefficient < 0 then "-" else ""
  sign ++ String.ofList (if d.scale = 0 then whole else whole ++ '.' :: fraction)

end Decimal

namespace Price

theorem natAbs_ticks_lt (p : Price) : p.ticks.toInt.natAbs < 0x1000000000000000000000000 := by
  have h₁ := p.ticks.toInt_lt
  have h₂ := p.ticks.le_toInt
  omega

/-- The exact value of a price quoted with `scale` decimals; scales above 28 count as 28. -/
def toDecimal (p : Price) (scale : Nat) : Decimal where
  coefficient := p.ticks.toInt
  scale := min scale 28
  coefficient_lt := p.natAbs_ticks_lt
  scale_le := Nat.min_le_right _ _

def ofDecimal? (d : Decimal) (scale : Nat) : Option Price :=
  let c := (d.rescale scale).coefficient
  if Int64.minValue.toInt ≤ c ∧ c ≤ Int64.maxValue.toInt then some ⟨Int64.ofInt c⟩ else none

end Price

end QuoteBoard
