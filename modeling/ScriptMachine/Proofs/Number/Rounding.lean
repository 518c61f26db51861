/-
# Rounding to decimals

A decimal is computed from a ratio of two naturals with natural numbers alone:
digits are counted to find the power of ten, and one division with remainder
rounds. Here the value of the decimal is compared with the rational that it
comes from. It is the multiple of a unit that lies nearest, a half going to the
even multiple, and the unit is the one of the last digit.

Rounding may carry into a new power of ten. The unit of the last digit is then
ten times as large as the unit that was rounded to. A carry leaves a power of
ten, which is a multiple of either unit, so rounding to the larger unit gives the
same value.

## Main definitions

* `Rounds` — a rational is rounded to a multiple of a unit
* `Decimal.value` — the rational that a decimal stands for

## Main results

* `Rounds.eq` — there is one way to round
* `leadingPower_eq` — counting digits gives the logarithm
* `rounds_significant` — the rational is rounded to the given number of digits
* `rounds_significant_leading` — also if the power of ten is taken after rounding
-/

import Mathlib.Algebra.Order.Field.Power
import Mathlib.Algebra.Order.Floor.Semifield
import Mathlib.Data.Int.Log
import Mathlib.Data.Rat.Floor
import Mathlib.Tactic.Linarith
import ScriptMachine.Number.Decimal

namespace ScriptMachine

/-! ## Rounding to a unit -/

/-- The rational is rounded to a nearest multiple of the unit, and to the even one of two that
are equally near. -/
def Rounds (unit x rounded : ℚ) : Prop :=
  ∃ m : ℤ, rounded = m * unit ∧ |x - rounded| ≤ unit / 2 ∧ (|x - rounded| = unit / 2 → Even m)

namespace Rounds

variable {unit x rounded other : ℚ}

theorem abs_sub_le (h : Rounds unit x rounded) : |x - rounded| ≤ unit / 2 := by
  obtain ⟨m, -, near, -⟩ := h
  exact near

theorem eq (pos : 0 < unit) (h : Rounds unit x rounded) (h' : Rounds unit x other) :
    rounded = other := by
  obtain ⟨m, rfl, near, even⟩ := h
  obtain ⟨n, rfl, near', even'⟩ := h'
  have apart : |(m : ℚ) - n| * unit ≤ |x - n * unit| + |x - m * unit| := calc
    |(m : ℚ) - n| * unit = |(x - n * unit) - (x - m * unit)| := by
      rw [← abs_of_pos pos, ← abs_mul, abs_of_pos pos]
      ring_nf
    _ ≤ |x - n * unit| + |x - m * unit| := abs_sub _ _
  by_contra ne
  have step : 1 ≤ |m - n| := Int.one_le_abs (sub_ne_zero.mpr fun same => ne (by rw [same]))
  have step' : (1 : ℚ) ≤ |(m : ℚ) - n| := by exact_mod_cast step
  -- Two multiples that are equally near are neighbours, so one of them is odd.
  have half : |x - m * unit| = unit / 2 := by nlinarith
  have half' : |x - n * unit| = unit / 2 := by nlinarith
  obtain ⟨k, twice⟩ := (even half).sub (even' half')
  have two : 2 ≤ |m - n| := by
    rw [Int.abs_eq_natAbs] at step ⊢
    omega
  have two' : (2 : ℚ) ≤ |(m : ℚ) - n| := by exact_mod_cast two
  nlinarith

/-- A multiple of the unit below the rational stays below. -/
theorem mul_le (pos : 0 < unit) (h : Rounds unit x rounded) {n : ℤ} (le : n * unit ≤ x) :
    n * unit ≤ rounded := by
  obtain ⟨m, rfl, near, -⟩ := h
  have near' := (abs_le.mp near).2
  have lt : (n : ℚ) < m + 1 := by nlinarith
  have le' : n ≤ m := Int.lt_add_one_iff.mp (by exact_mod_cast lt)
  gcongr

/-- A multiple of the unit above the rational stays above. -/
theorem le_mul (pos : 0 < unit) (h : Rounds unit x rounded) {n : ℤ} (le : x ≤ n * unit) :
    rounded ≤ n * unit := by
  obtain ⟨m, rfl, near, -⟩ := h
  have near' := (abs_le.mp near).1
  have lt : (m : ℚ) < n + 1 := by nlinarith
  have le' : m ≤ n := Int.lt_add_one_iff.mp (by exact_mod_cast lt)
  gcongr

theorem neg (h : Rounds unit x rounded) : Rounds unit (-x) (-rounded) := by
  obtain ⟨m, rfl, near, even⟩ := h
  have flip : |(-x) - -(m * unit)| = |x - m * unit| := by rw [← abs_neg]; ring_nf
  exact ⟨-m, by push_cast; ring, flip ▸ near, fun half => (even (flip ▸ half)).neg⟩

/-- The unit may be scaled with what is rounded. -/
theorem scale {factor : ℚ} (pos : 0 < factor) (h : Rounds unit x rounded) :
    Rounds (unit * factor) (x * factor) (rounded * factor) := by
  obtain ⟨m, rfl, near, even⟩ := h
  have stretch : |x * factor - m * unit * factor| = |x - m * unit| * factor := by
    rw [← sub_mul, abs_mul, abs_of_pos pos]
  refine ⟨m, by ring, ?_, fun half => even ?_⟩
  · rw [stretch]
    nlinarith
  · rw [stretch] at half
    exact mul_right_cancel₀ pos.ne' (by linarith)

end Rounds

namespace Decimal

variable {num den : Nat}

/-- The rational that a decimal stands for. -/
def value (d : Decimal) : ℚ := d.coefficient * 10 ^ d.exponent

/-- A quotient is its floor and a part of the divisor. -/
theorem div_eq_add_mod (num : Nat) (pos : 0 < den) :
    (num / den : ℚ) = (num / den : ℕ) + (num % den : ℕ) / den := by
  have ne : (den : ℚ) ≠ 0 := by exact_mod_cast pos.ne'
  rw [div_eq_iff ne, add_mul, div_mul_cancel₀ _ ne]
  exact_mod_cast (Nat.div_add_mod' num den).symm

theorem rounds_roundHalfEven (num : Nat) (pos : 0 < den) :
    Rounds 1 (num / den) (roundHalfEven num den) := by
  have pos' : (0 : ℚ) < den := by exact_mod_cast pos
  have below : (num % den : ℕ) / (den : ℚ) < 1 / 2 ↔ 2 * (num % den) < den := by
    rw [div_lt_div_iff₀ pos' two_pos, one_mul, mul_comm]
    exact_mod_cast Iff.rfl
  have above : 1 / 2 < (num % den : ℕ) / (den : ℚ) ↔ den < 2 * (num % den) := by
    rw [div_lt_div_iff₀ two_pos pos', one_mul, mul_comm (Nat.cast _)]
    exact_mod_cast Iff.rfl
  have rest : 0 ≤ (num % den : ℕ) / (den : ℚ) := by positivity
  have rest' : (num % den : ℕ) / (den : ℚ) < 1 := by
    rw [div_lt_one pos']
    exact_mod_cast Nat.mod_lt num pos
  -- What is above the floor decides, and only where it lies from a half.
  rw [div_eq_add_mod num pos]
  simp only [roundHalfEven, ← below, ← above]
  generalize (num % den : ℕ) / (den : ℚ) = f at rest rest' ⊢
  generalize num / den = q
  split_ifs with lower upper
  · have dist : |(q : ℚ) + f - q| = f := by rw [add_sub_cancel_left, abs_of_nonneg rest]
    exact ⟨q, by simp, by linarith, fun half => by linarith⟩
  · have dist : |(q : ℚ) + f - (q + 1 : ℕ)| = 1 - f := by
      rw [← abs_of_pos (sub_pos.mpr rest'), ← abs_neg]
      push_cast
      ring_nf
    exact ⟨q + 1, by simp, by linarith, fun half => by linarith⟩
  · have half : f = 1 / 2 := le_antisymm (not_lt.mp upper) (not_lt.mp lower)
    have dist : |(q : ℚ) + f - (q + q % 2 : ℕ)| = 1 / 2 := by
      rcases Nat.mod_two_eq_zero_or_one q with parity | parity <;> rw [parity, half] <;> norm_num
    have even : Even (q + q % 2) := by grind
    exact ⟨(q + q % 2 : ℕ), by rw [Int.cast_natCast, mul_one], dist.le,
      fun _ => (Int.even_coe_nat _).mpr even⟩

theorem value_eq_div {d : Decimal} {k : ℤ} {p : Nat} (exponent : d.exponent = k - p) :
    d.value = d.coefficient / 10 ^ p * 10 ^ k := by
  rw [value, exponent, zpow_sub₀ (by norm_num), zpow_natCast]
  ring

/-! ## Digits and powers of ten -/

/-- Between a power of ten and the next one lie the rationals that have it as their logarithm. -/
theorem log_eq_iff {x : ℚ} (pos : 0 < x) {power : ℤ} :
    Int.log 10 x = power ↔ 10 ^ power ≤ x ∧ x < 10 ^ (power + 1) := by
  have lower := Int.zpow_le_iff_le_log (b := 10) (by decide) (x := power) pos
  have upper := Int.lt_zpow_iff_log_lt (b := 10) (by decide) (x := power + 1) pos
  push_cast at lower upper
  rw [lower, upper]
  omega

theorem log_mul_zpow {x : ℚ} (pos : 0 < x) (k : ℤ) :
    Int.log 10 (x * 10 ^ k) = Int.log 10 x + k := by
  obtain ⟨lower, upper⟩ := (log_eq_iff pos).mp rfl
  rw [log_eq_iff (by positivity), add_right_comm, zpow_add₀ (by norm_num) _ k,
    zpow_add₀ (by norm_num) _ k]
  have scale : (0 : ℚ) < 10 ^ k := by positivity
  exact ⟨by gcongr, by gcongr⟩

theorem digitCount_eq (n : Nat) : digitCount n = Nat.log 10 n + 1 := by
  have pos : 0 < digitCount n := Nat.length_toDigits_pos
  have bound : n < 10 ^ digitCount n := (Nat.length_toDigits_le_iff (by decide) pos).mp le_rfl
  have upper : digitCount n ≤ Nat.log 10 n + 1 :=
    (Nat.length_toDigits_le_iff (by decide) (by omega)).mpr
      (Nat.lt_pow_succ_log_self (by decide) n)
  have lower : Nat.log 10 n < digitCount n := Nat.log_lt_of_lt_pow' pos.ne' bound
  omega

theorem leadingPower_eq (pos : 0 < num) (pos' : 0 < den) :
    leadingPower num den = Int.log 10 (num / den : ℚ) := by
  have large : den < 10 ^ digitCount den :=
    digitCount_eq den ▸ Nat.lt_pow_succ_log_self (by decide) den
  have one_le : (1 : ℚ) ≤ (num * 10 ^ digitCount den : ℕ) / (den : ℚ) := by
    rw [one_le_div (by exact_mod_cast pos')]
    exact_mod_cast large.le.trans (Nat.le_mul_of_pos_left _ pos)
  have scaled : ((num * 10 ^ digitCount den : ℕ) / (den : ℚ)) =
      (num / den : ℚ) * 10 ^ (digitCount den : ℤ) := by
    push_cast
    rw [zpow_natCast]
    ring
  -- From one on, the logarithm of a quotient is that of its floor.
  have log := Int.log_of_one_le_right 10 one_le
  rw [Nat.floor_div_eq_div, scaled, log_mul_zpow (by positivity)] at log
  simp only [leadingPower, Nat.pow_eq, digitCount_eq (_ / den)]
  omega

theorem leading_eq_add (d : Decimal) : d.leading = d.exponent + Nat.log 10 d.coefficient := by
  have count : d.digits.length = Nat.log 10 d.coefficient + 1 := digitCount_eq d.coefficient
  rw [leading, count]
  push_cast
  ring

theorem leading_eq {d : Decimal} (pos : 0 < d.coefficient) : d.leading = Int.log 10 d.value := by
  rw [value, log_mul_zpow (by exact_mod_cast pos), Int.log_natCast, leading_eq_add, add_comm]

/-! ## Significant digits -/

theorem scaleByTen_snd_pos (num : Nat) (pos : 0 < den) (k : ℤ) :
    0 < (scaleByTen num den k).2 := by
  cases k with
  | ofNat k => exact pos
  | negSucc k => exact Nat.mul_pos pos (Nat.pow_pos (by decide))

theorem scaleByTen_div (num den : Nat) (k : ℤ) :
    ((scaleByTen num den k).1 / (scaleByTen num den k).2 : ℚ) = num / den * 10 ^ k := by
  cases k with
  | ofNat k =>
    simp only [scaleByTen, Nat.pow_eq, Int.ofNat_eq_natCast, zpow_natCast]
    push_cast
    ring
  | negSucc k =>
    simp only [scaleByTen, Nat.pow_eq, zpow_negSucc]
    push_cast
    rw [div_mul_eq_div_div]
    ring

/-- The rational is rounded to as many decimals as the power of ten that it is scaled by. -/
theorem rounds_scaleByTen (num : Nat) (pos : 0 < den) (k : ℤ) :
    Rounds (10 ^ (-k)) (num / den)
      (value ⟨roundHalfEven (scaleByTen num den k).1 (scaleByTen num den k).2, -k⟩) := by
  have factor : (0 : ℚ) < 10 ^ (-k) := by positivity
  have whole := (rounds_roundHalfEven (scaleByTen num den k).1
    (scaleByTen_snd_pos num pos k)).scale factor
  rwa [scaleByTen_div, mul_assoc, ← zpow_add₀ (by norm_num), add_neg_cancel, zpow_zero, mul_one,
    one_mul] at whole

theorem significant_exponent (count : Nat) (pos : 0 < num) (pos' : 0 < den) :
    (significant (count + 1) num den).exponent = Int.log 10 (num / den : ℚ) - count := by
  rw [significant, leadingPower_eq pos pos']
  push_cast
  ring

/-- The rational is rounded at the last of its digits. -/
theorem rounds_significant (count : Nat) (pos : 0 < num) (pos' : 0 < den) :
    Rounds (10 ^ (Int.log 10 (num / den : ℚ) - count)) (num / den)
      (significant (count + 1) num den).value := by
  rw [← significant_exponent count pos pos']
  exact rounds_scaleByTen num pos' _

/-- Rounding stays between the powers of ten around the rational, and may reach the upper one. -/
theorem significant_mem (count : Nat) (pos : 0 < num) (pos' : 0 < den) :
    10 ^ Int.log 10 (num / den : ℚ) ≤ (significant (count + 1) num den).value ∧
      (significant (count + 1) num den).value ≤ 10 ^ (Int.log 10 (num / den : ℚ) + 1) := by
  have positive : (0 : ℚ) < num / den := by positivity
  obtain ⟨lower, upper⟩ := (log_eq_iff positive).mp rfl
  have rounds := rounds_significant count pos pos'
  generalize Int.log 10 (num / den : ℚ) = power at lower upper rounds ⊢
  have unit : (0 : ℚ) < 10 ^ (power - count) := by positivity
  -- Both powers of ten are multiples of the unit, so rounding does not cross them.
  have low : (10 : ℚ) ^ power = (10 ^ count : ℤ) * 10 ^ (power - count) := by
    push_cast
    rw [← zpow_natCast, ← zpow_add₀ (by norm_num)]
    ring_nf
  have high : (10 : ℚ) ^ (power + 1) = (10 ^ (count + 1) : ℤ) * 10 ^ (power - count) := by
    push_cast
    rw [← zpow_natCast, ← zpow_add₀ (by norm_num)]
    push_cast
    ring_nf
  rw [low] at lower ⊢
  rw [high] at upper ⊢
  exact ⟨rounds.mul_le unit lower, rounds.le_mul unit upper.le⟩

theorem significant_coefficient_pos (count : Nat) (pos : 0 < num) (pos' : 0 < den) :
    0 < (significant (count + 1) num den).coefficient := by
  have positive := (zpow_pos (by norm_num : (0 : ℚ) < 10) _).trans_le
    (significant_mem count pos pos').1
  rw [value] at positive
  exact_mod_cast pos_of_mul_pos_left positive (by positivity)

/-- Rounding keeps the power of ten of the first digit, or carries to the next power of ten. -/
theorem significant_leading (count : Nat) (pos : 0 < num) (pos' : 0 < den) :
    (significant (count + 1) num den).leading = Int.log 10 (num / den : ℚ) ∨
      (significant (count + 1) num den).leading = Int.log 10 (num / den : ℚ) + 1 ∧
      (significant (count + 1) num den).value = 10 ^ (Int.log 10 (num / den : ℚ) + 1) := by
  obtain ⟨lower, upper⟩ := significant_mem count pos pos'
  rw [leading_eq (significant_coefficient_pos count pos pos')]
  generalize Int.log 10 (num / den : ℚ) = power at lower upper ⊢
  have positive := (by positivity : (0 : ℚ) < 10 ^ power).trans_le lower
  rcases upper.lt_or_eq with within | carry
  · exact .inl ((log_eq_iff positive).mpr ⟨lower, within⟩)
  · refine .inr ⟨?_, carry⟩
    rw [carry]
    exact_mod_cast Int.log_zpow (R := ℚ) (b := 10) (by decide) (power + 1)

/-- Rounding gives the same value if the power of ten of the last digit is taken after it. A carry
leaves a power of ten, which has no digit to round at the larger unit. -/
theorem rounds_significant_leading (count : Nat) (pos : 0 < num) (pos' : 0 < den) :
    Rounds (10 ^ ((significant (count + 1) num den).leading - count)) (num / den)
      (significant (count + 1) num den).value := by
  have rounds := rounds_significant count pos pos'
  rcases significant_leading count pos pos' with same | ⟨next, carry⟩
  · rwa [same]
  -- The distance is at most half the old unit, which is far from half the new one: no tie arises.
  rw [next, carry]
  rw [carry] at rounds
  generalize Int.log 10 (num / den : ℚ) = power at rounds ⊢
  have unit : (0 : ℚ) < 10 ^ (power - count) := by positivity
  have larger : (10 : ℚ) ^ (power + 1 - count) = 10 * 10 ^ (power - count) := by
    rw [add_sub_right_comm, zpow_add_one₀ (by norm_num)]
    ring
  have multiple : (10 : ℚ) ^ (power + 1) = (10 ^ count : ℤ) * 10 ^ (power + 1 - count) := by
    push_cast
    rw [← zpow_natCast, ← zpow_add₀ (by norm_num)]
    ring_nf
  have near := rounds.abs_sub_le
  rw [larger] at multiple ⊢
  exact ⟨10 ^ count, multiple, by linarith, fun half => by linarith⟩

/-- The digits are as many as were asked for, but for a zero that a carry leaves at their end. -/
theorem significant_digits (count : Nat) (pos : 0 < num) (pos' : 0 < den) :
    ∃ c j : Nat, (significant (count + 1) num den).coefficient = c * 10 ^ j ∧ Nat.log 10 c = count ∧
      (significant (count + 1) num den).exponent + j =
        (significant (count + 1) num den).leading - count := by
  have exponent := significant_exponent count pos pos'
  have leading := leading_eq_add (significant (count + 1) num den)
  rcases significant_leading count pos pos' with same | ⟨next, carry⟩
  · exact ⟨_, 0, (Nat.mul_one _).symm, by omega, by omega⟩
  refine ⟨10 ^ count, 1, ?_, Nat.log_pow (by decide) count, by omega⟩
  rw [value, exponent, ← sub_add_cancel (Int.log 10 (num / den : ℚ)) count, add_assoc,
    zpow_add₀ (by norm_num) _ (count + 1 : ℤ), mul_comm, add_sub_cancel_right] at carry
  have whole := mul_left_cancel₀ (by positivity) carry
  rw [← Nat.pow_add]
  exact_mod_cast whole

end Decimal

end ScriptMachine
