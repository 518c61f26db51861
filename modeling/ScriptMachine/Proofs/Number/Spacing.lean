/-
# Spacing of numbers

A finite number is an integer below `2 ^ 53` times a power of two. The integer has
all its fifty-three bits unless the power is the smallest one, so each finite
number has one such form, and its neighbours are not much nearer than one unit of
the last bit. Below a power of two they are half a unit away. In all cases two
numbers that differ are apart by the `2 ^ 53`th part of either, the numbers with few
bits near zero included, because their unit is as large a part of them or larger.

A rational that is within half a `10 ^ 16`th part of a number is therefore nearer to
it than to any other number, since `2 ^ 53 < 10 ^ 16`.

## Main definitions

* `Number.IsFinite` — neither a NaN nor infinite
* `Number.value` — the rational that a finite number is
* `Number.Nearest` — the number that a rational is read as

## Main results

* `eq_of_value_eq` — sign and value determine a finite number
* `gap_le` — how far numbers are apart
* `nearest_iff_of_close` — a close rational is read as the number and as no other
-/

import Mathlib.Algebra.Order.Field.Power
import Mathlib.Data.Rat.Floor
import Mathlib.Tactic.Linarith
import ScriptMachine.Number.Decimal

namespace ScriptMachine

namespace Number

variable {x y : Number} {m n : Nat} {s t : ℤ} {q : ℚ}

/-- The number is no NaN and not infinite: its exponent bits are not all set. -/
def IsFinite (x : Number) : Prop := x.exponentField ≠ 2047

/-- The magnitude of a finite number. -/
def absValue (x : Number) : ℚ := x.significand * 2 ^ x.scale

/-- The rational that a finite number is. Both zeros have the value zero. -/
def value (x : Number) : ℚ := if x.isNegative then -x.absValue else x.absValue

/-- The rational is read as the number: no finite number is nearer, of two that are equally near
the even one is taken, and the rational is below the bound from which reading gives infinity. -/
structure Nearest (q : ℚ) (x : Number) : Prop where
  finite : x.IsFinite
  small : |q| < 2 ^ 1024 - 2 ^ 970
  le : ∀ y : Number, y.IsFinite → |q - x.value| ≤ |q - y.value|
  even : ∀ y : Number, y.IsFinite → y.value ≠ x.value → |q - y.value| = |q - x.value| →
    Even x.significand

theorem IsFinite.isNaN (finite : x.IsFinite) : x.isNaN = false := by
  rw [Number.isNaN, beq_false_of_ne finite, Bool.false_and]

theorem IsFinite.isInfinite (finite : x.IsFinite) : x.isInfinite = false := by
  rw [Number.isInfinite, beq_false_of_ne finite, Bool.false_and]

/-! ## The word and its parts -/

theorem exponentField_eq (x : Number) : x.exponentField = x.bits.toNat / 2 ^ 52 % 2 ^ 11 := by
  rw [exponentField, UInt64.toNat_and, UInt64.toNat_shiftRight, Nat.shiftRight_eq_div_pow]
  exact Nat.and_two_pow_sub_one_eq_mod _ 11

theorem fraction_eq (x : Number) : x.fraction = x.bits.toNat % 2 ^ 52 := by
  rw [fraction, UInt64.toNat_and]
  exact Nat.and_two_pow_sub_one_eq_mod _ 52

theorem exponentField_lt (x : Number) : x.exponentField < 2 ^ 11 :=
  exponentField_eq x ▸ Nat.mod_lt _ (by decide)

theorem fraction_lt (x : Number) : x.fraction < 2 ^ 52 :=
  fraction_eq x ▸ Nat.mod_lt _ (by decide)

theorem magnitude_eq (x : Number) : x.magnitude = x.bits.toNat % 2 ^ 63 := by
  rw [magnitude, UInt64.toNat_and]
  exact Nat.and_two_pow_sub_one_eq_mod _ 63

theorem isNegative_iff (x : Number) : x.isNegative = true ↔ x.bits.toNat / 2 ^ 63 = 1 := by
  rw [isNegative, beq_iff_eq, ← UInt64.toNat_inj, UInt64.toNat_shiftRight,
    Nat.shiftRight_eq_div_pow]
  rfl

theorem magnitude_eq_add (x : Number) : x.magnitude = x.exponentField * 2 ^ 52 + x.fraction := by
  rw [magnitude_eq, exponentField_eq, fraction_eq]
  omega

/-- The sign, the exponent and the fraction are all of the word. -/
theorem eq_of_fields (sign : x.isNegative = y.isNegative)
    (exponent : x.exponentField = y.exponentField) (fraction : x.fraction = y.fraction) :
    x = y := by
  have sign' := Bool.eq_iff_iff.mp sign
  rw [isNegative_iff, isNegative_iff] at sign'
  rw [exponentField_eq, exponentField_eq] at exponent
  rw [fraction_eq, fraction_eq] at fraction
  have bound := x.bits.toNat_lt
  have bound' := y.bits.toNat_lt
  have bits : x.bits.toNat = y.bits.toNat := by omega
  exact congrArg mk (UInt64.toNat_inj.mp bits)

/-! ## Significand and scale -/

/-- The integer and the power of two of a magnitude are the ones that a number has: as many bits
as fit, or the smallest power. -/
structure Canonical (m : Nat) (s : ℤ) : Prop where
  lt : m < 2 ^ 53
  le : -1074 ≤ s
  full : 2 ^ 52 ≤ m ∨ s = -1074

theorem canonical (x : Number) : Canonical x.significand x.scale := by
  have lt := fraction_lt x
  rw [significand, scale, Nat.pow_eq]
  split_ifs with zero
  · exact ⟨by omega, by omega, .inr (by omega)⟩
  · exact ⟨by omega, by omega, .inl (by omega)⟩

/-- The sign, the significand and the scale are all of the number, too. -/
theorem eq_of_parts (sign : x.isNegative = y.isNegative) (whole : x.significand = y.significand)
    (scale : x.scale = y.scale) : x = y := by
  have lt := fraction_lt x
  have lt' := fraction_lt y
  simp only [significand, Nat.pow_eq] at whole
  simp only [Number.scale] at scale
  have fields : x.exponentField = y.exponentField ∧ x.fraction = y.fraction := by
    split_ifs at whole <;> omega
  exact eq_of_fields sign fields.1 fields.2

theorem scale_le (finite : x.IsFinite) : x.scale ≤ 971 := by
  have lt := exponentField_lt x
  rw [IsFinite] at finite
  rw [scale]
  omega

theorem isZero_iff : x.isZero = true ↔ x.significand = 0 := by
  rw [isZero, beq_iff_eq, magnitude_eq_add, significand]
  by_cases zero : x.exponentField = 0
  · rw [if_pos zero, zero, zero_mul, zero_add]
  · rw [if_neg zero]
    have power : 0 < 2 ^ 52 := Nat.pow_pos (by decide)
    have field : 0 < x.exponentField * 2 ^ 52 := Nat.mul_pos (Nat.pos_of_ne_zero zero) power
    exact iff_of_false (Nat.add_pos_left field _).ne' (Nat.add_pos_right _ power).ne'

theorem absValue_nonneg (x : Number) : 0 ≤ x.absValue := by
  rw [absValue]
  positivity

theorem absValue_eq_zero_iff : x.absValue = 0 ↔ x.significand = 0 := by
  rw [absValue, mul_eq_zero, or_iff_left (by positivity), Nat.cast_eq_zero]

theorem abs_signed {a : ℚ} (nonneg : 0 ≤ a) (negative : Bool) :
    |if negative then -a else a| = a := by
  split_ifs
  · rw [abs_neg, abs_of_nonneg nonneg]
  · exact abs_of_nonneg nonneg

theorem abs_value (x : Number) : |x.value| = x.absValue :=
  abs_signed (absValue_nonneg x) x.isNegative

theorem value_ne_zero_iff : x.value ≠ 0 ↔ 0 < x.significand := by
  rw [← abs_ne_zero, abs_value, Ne, absValue_eq_zero_iff, Nat.pos_iff_ne_zero]

/-- The bound from which reading gives infinity, counted in half units of the last bit of the
largest number. -/
theorem two_pow_sub : (2 : ℚ) ^ 1024 - 2 ^ 970 = (2 ^ 54 - 1) * 2 ^ 970 := by
  rw [sub_mul, one_mul, ← pow_add]

/-- The largest number lies half a unit of its last bit below that bound. -/
theorem absValue_le (finite : x.IsFinite) : x.absValue ≤ (2 ^ 54 - 2) * 2 ^ 970 := by
  have le : (x.significand : ℚ) ≤ 2 ^ 53 - 1 := by
    have lt := (canonical x).lt
    rw [le_sub_iff_add_le]
    exact_mod_cast lt
  calc x.absValue = x.significand * 2 ^ x.scale := rfl
    _ ≤ x.significand * 2 ^ (971 : ℤ) := by
      gcongr
      · norm_num
      · exact scale_le finite
    _ ≤ (2 ^ 53 - 1) * 2 ^ (971 : ℤ) := by gcongr
    _ = (2 ^ 54 - 2) * 2 ^ 970 := by
      rw [show (971 : ℤ) = 1 + (970 : ℕ) from rfl, zpow_add₀ (by norm_num), zpow_natCast, zpow_one]
      generalize (2 : ℚ) ^ 970 = u
      ring

/-- The ratio of naturals is the magnitude. -/
theorem ratio_eq (x : Number) : (x.ratio.1 / x.ratio.2 : ℚ) = x.absValue := by
  rw [ratio, absValue]
  cases x.scale with
  | ofNat k => simp
  | negSucc k => simp [zpow_negSucc, div_eq_mul_inv]

theorem ratio_snd_pos (x : Number) : 0 < x.ratio.2 := by
  rw [ratio]
  cases x.scale with
  | ofNat k => exact Nat.one_pos
  | negSucc k => exact Nat.pow_pos (by decide)

theorem ratio_fst_pos (pos : 0 < x.significand) : 0 < x.ratio.1 := by
  rw [ratio]
  cases x.scale with
  | ofNat k => exact Nat.mul_pos pos (Nat.pow_pos (by decide))
  | negSucc k => exact pos

/-! ## How far numbers are apart -/

namespace Canonical

/-- A magnitude of the larger scale is at least by a `2 ^ 53`th part of itself above one of the
smaller scale, because it has all its bits. -/
theorem lower_gap (h : Canonical m s) (h' : Canonical n t) (lt : t < s) :
    (n * 2 ^ t : ℚ) + m * 2 ^ s / 2 ^ 53 ≤ m * 2 ^ s := by
  obtain ⟨k, rfl⟩ : ∃ k : ℕ, s = t + 1 + k := ⟨(s - t - 1).toNat, by omega⟩
  have full : 2 ^ 52 ≤ m := h.full.resolve_right (by have := h'.le; omega)
  have full' : (2 ^ 52 : ℚ) ≤ m := by exact_mod_cast full
  have below : (n : ℚ) + 1 ≤ 2 ^ 53 := by exact_mod_cast h'.lt
  have power : (m * 2 ^ (t + 1 + k) : ℚ) = m * (2 * 2 ^ k) * 2 ^ t := by
    rw [add_assoc, zpow_add₀ (by norm_num), zpow_add₀ (by norm_num), zpow_one, zpow_natCast]
    ring
  have one_le : (1 : ℚ) ≤ 2 ^ k := one_le_pow₀ (by norm_num)
  have units : (n + m * (2 * 2 ^ k) / 2 ^ 53 : ℚ) ≤ m * (2 * 2 ^ k) := by nlinarith
  rw [power, mul_div_right_comm, ← add_mul]
  gcongr

/-- Magnitudes that differ are apart by the `2 ^ 53`th part of either. -/
theorem gap (h : Canonical m s) (h' : Canonical n t) (ne : (m : ℚ) * 2 ^ s ≠ n * 2 ^ t) :
    (m * 2 ^ s / 2 ^ 53 : ℚ) ≤ |(m * 2 ^ s - n * 2 ^ t : ℚ)| := by
  rcases lt_or_ge t s with lt | le
  · have apart := h.lower_gap h' lt
    exact le_trans (by linarith) (le_abs_self _)
  -- Both are multiples of the unit of the smaller scale.
  obtain ⟨k, rfl⟩ : ∃ k : ℕ, t = s + k := ⟨(t - s).toNat, by omega⟩
  have power : (n * 2 ^ (s + k) : ℚ) = (n * 2 ^ k : ℤ) * 2 ^ s := by
    rw [zpow_add₀ (by norm_num), zpow_natCast]
    push_cast
    ring
  rw [power] at ne ⊢
  have ne' : (m : ℤ) - n * 2 ^ k ≠ 0 := fun zero => ne (by
    rw [← sub_eq_zero.mp zero, Int.cast_natCast])
  have one_le : (1 : ℚ) ≤ |(m : ℚ) - (n * 2 ^ k : ℤ)| := by
    exact_mod_cast Int.one_le_abs ne'
  have below : (m : ℚ) ≤ 2 ^ 53 := by exact_mod_cast h.lt.le
  have unit : (0 : ℚ) < 2 ^ s := by positivity
  rw [← sub_mul, abs_mul, abs_of_pos unit, mul_div_right_comm]
  gcongr
  exact le_trans ((div_le_one (by norm_num)).mpr below) one_le

/-- A magnitude has one form. -/
theorem unique (h : Canonical m s) (h' : Canonical n t) (eq : (m : ℚ) * 2 ^ s = n * 2 ^ t) :
    m = n ∧ s = t := by
  -- The larger scale would make the magnitude larger.
  have scale_le {m n : Nat} {s t : ℤ} (h : Canonical m s) (h' : Canonical n t)
      (eq : (m : ℚ) * 2 ^ s = n * 2 ^ t) : s ≤ t := by
    by_contra! lt
    have apart := h.lower_gap h' lt
    have full : 2 ^ 52 ≤ m := h.full.resolve_right (by have := h'.le; omega)
    have pos : 0 < (m : ℚ) := by exact_mod_cast (by decide : 0 < 2 ^ 52).trans_le full
    have part : 0 < (m * 2 ^ s / 2 ^ 53 : ℚ) := by positivity
    linarith
  obtain rfl : s = t :=
    le_antisymm (scale_le h h' eq) (scale_le h' h eq.symm)
  exact ⟨by exact_mod_cast mul_right_cancel₀ (by positivity) eq, rfl⟩

end Canonical

theorem eq_of_value_eq (sign : x.isNegative = y.isNegative) (eq : x.value = y.value) : x = y := by
  have magnitudes : x.absValue = y.absValue := by rw [← abs_value, eq, abs_value]
  obtain ⟨whole, scale⟩ := (canonical x).unique (canonical y) magnitudes
  exact eq_of_parts sign whole scale

/-- Numbers that differ are apart by the `2 ^ 53`th part of either. -/
theorem gap_le (x y : Number) (ne : x.value ≠ y.value) :
    |x.value| / 2 ^ 53 ≤ |x.value - y.value| := by
  have small : x.absValue / 2 ^ 53 ≤ x.absValue :=
    div_le_self (absValue_nonneg x) (by norm_num)
  rw [abs_value]
  by_cases sign : x.isNegative = y.isNegative
  · have magnitudes : x.absValue ≠ y.absValue := fun same => ne (by rw [value, value, sign, same])
    have apart := (canonical x).gap (canonical y) magnitudes
    rw [value, value, ← sign]
    split_ifs
    · rwa [neg_sub_neg, abs_sub_comm]
    · exact apart
  -- Across zero the distance is the sum of the magnitudes.
  · have apart : x.absValue + y.absValue ≤ |x.value - y.value| := by
      rw [value, value]
      split_ifs with left right right
      · exact absurd (left.trans right.symm) sign
      · exact le_abs.mpr (.inr (by linarith))
      · exact le_abs.mpr (.inl (by linarith))
      · exact absurd ((Bool.eq_false_of_not_eq_true left).trans
          (Bool.eq_false_of_not_eq_true right).symm) sign
    linarith [absValue_nonneg y]

/-! ## Reading a close rational -/

/-- The rational differs from the number by no more than a `10 ^ 16`th part of the number, halved. -/
def Close (q : ℚ) (x : Number) : Prop := |q - x.value| ≤ |x.value| / 10 ^ 16 / 2

theorem Close.lt (close : Close q x) (ne : y.value ≠ x.value) : |q - x.value| < |q - y.value| := by
  have apart := gap_le x y ne.symm
  have split : |x.value - y.value| ≤ |q - x.value| + |q - y.value| := by
    rw [abs_sub_comm q x.value]
    exact abs_sub_le _ _ _
  have pos : 0 < |x.value - y.value| := abs_pos.mpr (sub_ne_zero.mpr ne.symm)
  rw [Close] at close
  rcases (abs_nonneg x.value).eq_or_lt with zero | pos'
  · rw [← zero] at close
    linarith
  · linarith

/-- A rational that is close to a number is read as this number, and as no other of its sign. -/
theorem nearest_iff_of_close (finite : x.IsFinite) (close : Close q x) :
    Nearest q y ∧ y.isNegative = x.isNegative ↔ y = x := by
  constructor
  · rintro ⟨nearest, sign⟩
    by_contra ne
    have values : y.value ≠ x.value := fun same => ne (eq_of_value_eq sign same)
    exact (close.lt values).not_ge (nearest.le x finite)
  · rintro rfl
    refine ⟨⟨finite, ?_, fun z _ => ?_, fun z _ ne tie => ?_⟩, rfl⟩
    · have bound := absValue_le finite
      have near := abs_sub_abs_le_abs_sub q y.value
      have unit : (0 : ℚ) < 2 ^ 970 := by positivity
      rw [Close, abs_value] at close
      rw [abs_value] at near
      rw [two_pow_sub]
      generalize (2 : ℚ) ^ 970 = u at bound unit ⊢
      linarith
    · by_cases same : z.value = y.value
      · rw [same]
      · exact (close.lt same).le
    · exact absurd tie (close.lt ne).ne'

end Number

end ScriptMachine
