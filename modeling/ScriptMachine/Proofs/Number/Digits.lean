/-
# Digits around the point

A decimal is laid out around a point from the digits of its coefficient. With `p`
decimals, the whole part is the quotient of the coefficient by `10 ^ p`, and the
fraction is its `p` lowest digits, zeros at their front included. Both layouts of a
decimal are of this form: the positional one has as many decimals as the exponent
says, the exponential one has all digits but the first.

More decimals append zeros to the fraction, which are dropped from its end. So the
text depends on the rational alone and not on the decimal that stands for it.

## Main definitions

* `lowDigits` — the lowest digits of a natural number, with leading zeros
* `Decimal.laidOut` — a coefficient laid out with a number of decimals

## Main results

* `toDigits_eq_append` — the digits, split at any place
* `positional_eq`, `exponential_eq` — both layouts, by quotient and lowest digits
* `laidOut_mul_pow` — more decimals make no other text
-/

import Mathlib.Data.List.DropRight
import ScriptMachine.Number.Text
import ScriptMachine.Proofs.Number.Rounding

namespace ScriptMachine

variable {c p : Nat}

/-- The lowest digits of a natural number: as many as are asked for, zeros in front. -/
def lowDigits : Nat → Nat → List Char
  | 0, _ => []
  | p + 1, c => lowDigits p (c / 10) ++ [(c % 10).digitChar]

@[simp]
theorem length_lowDigits (p c : Nat) : (lowDigits p c).length = p := by
  induction p generalizing c with
  | zero => rfl
  | succ p ih => simp [lowDigits, ih]

theorem isDigit_of_mem_lowDigits {d : Char} (mem : d ∈ lowDigits p c) : d.isDigit = true := by
  induction p generalizing c with
  | zero => cases mem
  | succ p ih =>
    rcases List.mem_append.mp mem with mem | last
    · exact ih mem
    · rw [List.mem_singleton.mp last, Nat.isDigit_digitChar]
      exact decide_eq_true (Nat.mod_lt c (by decide))

/-- The digits of a natural number, split at any place. -/
theorem toDigits_eq_append (pos : 0 < c / 10 ^ p) :
    Nat.toDigits 10 c = Nat.toDigits 10 (c / 10 ^ p) ++ lowDigits p c := by
  induction p generalizing c with
  | zero => simp [lowDigits]
  | succ p ih =>
    rw [Nat.pow_succ', ← Nat.div_div_eq_div_mul] at pos ⊢
    have large : ¬ c < 10 := fun lt => by simp [Nat.div_eq_of_lt lt] at pos
    rw [Nat.toDigits_eq_if (by decide), if_neg large, ih pos, lowDigits, List.append_assoc]

theorem lowDigits_add (k p c : Nat) :
    lowDigits (k + p) c = lowDigits k (c / 10 ^ p) ++ lowDigits p c := by
  induction p generalizing c with
  | zero => simp [lowDigits]
  | succ p ih =>
    rw [← Nat.add_assoc, lowDigits, ih, lowDigits, Nat.pow_succ', ← Nat.div_div_eq_div_mul,
      List.append_assoc]

theorem lowDigits_mul_pow (k c : Nat) : lowDigits k (c * 10 ^ k) = List.replicate k '0' := by
  induction k with
  | zero => rfl
  | succ k ih =>
    rw [Nat.pow_succ, ← Nat.mul_assoc, lowDigits, Nat.mul_div_cancel _ (by decide), ih,
      Nat.mul_mod_left, List.replicate_succ']
    rfl

theorem toDigits_mul_pow (pos : 0 < c) (k : Nat) :
    Nat.toDigits 10 (c * 10 ^ k) = Nat.toDigits 10 c ++ List.replicate k '0' := by
  have whole : c * 10 ^ k / 10 ^ k = c := Nat.mul_div_cancel c (Nat.pow_pos (by decide))
  rw [toDigits_eq_append (p := k) (whole.symm ▸ pos), whole, lowDigits_mul_pow]

theorem ofDigitChars_lowDigits (p c : Nat) :
    Nat.ofDigitChars 10 (lowDigits p c) 0 = c % 10 ^ p := by
  induction p generalizing c with
  | zero => simp [lowDigits, Nat.mod_one]
  | succ p ih =>
    have digit : c % 10 < 10 := Nat.mod_lt c (by decide)
    have value : (c % 10).digitChar.toNat - '0'.toNat = c % 10 := by
      rw [Nat.toNat_digitChar_of_lt_ten digit]
      exact Nat.add_sub_cancel_left ..
    rw [lowDigits, Nat.ofDigitChars_append, ih, Nat.ofDigitChars_cons, Nat.ofDigitChars_nil, value,
      Nat.pow_succ', Nat.mod_mul, Nat.add_comm]

/-! ## The first digit -/

/-- Without all digits but one, the first digit is left. -/
theorem div_pow_log_mem (pos : 0 < c) :
    0 < c / 10 ^ Nat.log 10 c ∧ c / 10 ^ Nat.log 10 c < 10 := by
  refine ⟨Nat.div_pos (Nat.pow_log_le_self 10 pos.ne') (Nat.pow_pos (by decide)), ?_⟩
  rw [Nat.div_lt_iff_lt_mul (Nat.pow_pos (by decide)), ← Nat.pow_succ']
  exact Nat.lt_pow_succ_log_self (by decide) c

theorem lowDigits_log_succ (pos : 0 < c) :
    lowDigits (Nat.log 10 c + 1) c = Nat.toDigits 10 c := by
  obtain ⟨first, lt⟩ := div_pow_log_mem pos
  rw [Nat.add_comm, lowDigits_add, toDigits_eq_append first, Nat.toDigits_of_lt_base lt]
  simp [lowDigits, Nat.mod_eq_of_lt lt]

/-! ## Layouts -/

namespace Decimal

variable {d : Decimal}

/-- The text of the rational `c / 10 ^ p`. -/
def laidOut (c p : Nat) : List Char := joinPoint (Nat.toDigits 10 (c / 10 ^ p)) (lowDigits p c)

theorem length_digits (d : Decimal) : d.digits.length = Nat.log 10 d.coefficient + 1 :=
  digitCount_eq d.coefficient

theorem positional_eq (pos : 0 < d.coefficient) (exponent : d.exponent = -p) :
    d.positional = laidOut d.coefficient p := by
  have count := length_digits d
  have leading := leading_eq_add d
  rw [exponent] at leading
  have digits : d.digits = Nat.toDigits 10 d.coefficient := rfl
  unfold positional laidOut
  -- The first digit stands before the point, or behind it after zeros.
  cases place : d.leading with
  | ofNat k =>
    rw [leading, Int.ofNat_eq_natCast] at place
    have power : 10 ^ p ≤ d.coefficient :=
      (Nat.pow_le_pow_right (by decide) (by omega)).trans (Nat.pow_log_le_self 10 pos.ne')
    have split := toDigits_eq_append (Nat.div_pos power (Nat.pow_pos (by decide)))
    have whole : (Nat.toDigits 10 (d.coefficient / 10 ^ p)).length = k + 1 := by
      have both := congrArg List.length split
      rw [List.length_append, length_lowDigits, ← digits, count] at both
      omega
    have enough : k + 1 - d.digits.length = 0 := by omega
    simp only [List.rightpad, enough, List.replicate_zero, List.append_nil]
    rw [digits, split, List.take_left' whole, List.drop_left' whole]
  | negSucc k =>
    rw [leading] at place
    have decimals : p = k + (Nat.log 10 d.coefficient + 1) := by omega
    have small : d.coefficient / 10 ^ p = 0 := Nat.div_eq_of_lt <|
      (Nat.lt_pow_succ_log_self (by decide) d.coefficient).trans_le
        (Nat.pow_le_pow_right (by decide) (by omega))
    have above : d.coefficient / 10 ^ (Nat.log 10 d.coefficient + 1) = 0 :=
      Nat.div_eq_of_lt (Nat.lt_pow_succ_log_self (by decide) d.coefficient)
    have zeros := lowDigits_mul_pow k 0
    rw [Nat.zero_mul] at zeros
    rw [small, decimals, lowDigits_add, lowDigits_log_succ pos, above, zeros]
    rfl

/-- One digit is the whole part of the exponential layout, and the others are its decimals. -/
theorem joinPoint_take_drop (pos : 0 < d.coefficient) :
    joinPoint (d.digits.take 1) (d.digits.drop 1) =
      laidOut d.coefficient (Nat.log 10 d.coefficient) := by
  obtain ⟨first, lt⟩ := div_pow_log_mem pos
  have one : (Nat.toDigits 10 (d.coefficient / 10 ^ Nat.log 10 d.coefficient)).length = 1 := by
    rw [Nat.toDigits_of_lt_base lt]
    rfl
  rw [laidOut, digits, toDigits_eq_append first, List.take_left' one, List.drop_left' one]

/-! ## Zeros at the end of the fraction -/

theorem dropTrailingZeros_append (cs : List Char) (j : Nat) :
    dropTrailingZeros (cs ++ List.replicate j '0') = dropTrailingZeros cs := by
  induction j with
  | zero => simp
  | succ j ih =>
    rw [List.replicate_succ', ← List.append_assoc]
    exact (List.rdropWhile_concat_pos _ _ _ rfl).trans ih

theorem exists_append_replicate (cs : List Char) :
    ∃ j, cs = dropTrailingZeros cs ++ List.replicate j '0' := by
  refine ⟨(cs.rtakeWhile (· == '0')).length, ?_⟩
  have zeros : cs.rtakeWhile (· == '0') =
      List.replicate (cs.rtakeWhile (· == '0')).length '0' :=
    List.eq_replicate_of_mem fun c mem => by simpa using List.mem_rtakeWhile_imp mem
  rw [← zeros]
  exact List.rdropWhile_append_rtakeWhile.symm

/-- The digits after the point stand for the same rational without the zeros at their end. -/
theorem ofDigitChars_dropTrailingZeros (cs : List Char) :
    (Nat.ofDigitChars 10 (dropTrailingZeros cs) 0 / 10 ^ (dropTrailingZeros cs).length : ℚ) =
      Nat.ofDigitChars 10 cs 0 / 10 ^ cs.length := by
  obtain ⟨j, split⟩ := exists_append_replicate cs
  generalize dropTrailingZeros cs = kept at split ⊢
  have scale : (10 : ℚ) ^ j ≠ 0 := by positivity
  rw [split, Nat.ofDigitChars_append, Nat.ofDigitChars_replicate_zero, List.length_append,
    List.length_replicate, pow_add, Nat.cast_mul, Nat.cast_pow, Nat.cast_ofNat, mul_comm,
    mul_div_mul_right _ _ scale]

/-- Decimals that are added are zeros, and are dropped. -/
theorem laidOut_mul_pow (c p j : Nat) : laidOut (c * 10 ^ j) (p + j) = laidOut c p := by
  have ten : 0 < 10 ^ j := Nat.pow_pos (by decide)
  have whole : c * 10 ^ j / 10 ^ (p + j) = c / 10 ^ p := by
    rw [Nat.pow_add, Nat.mul_div_mul_right _ _ ten]
  simp only [laidOut, joinPoint, lowDigits_add, lowDigits_mul_pow, Nat.mul_div_cancel _ ten,
    dropTrailingZeros_append, whole]

end Decimal

end ScriptMachine
