/-
# Texts of numbers

The text that a number contributes to a string is a numeral. It stands for the number
rounded to seventeen significant digits, so it is close to the number, and reading it
gives the number back. The texts of two numbers differ, those of the two zeros
included, which differ in the sign.

The same text comes from two passes over the number. The first rounds to seventeen
digits and finds the power of ten, the second lays the number out with as many
decimals as this power leaves for seventeen digits. It rounds once more and from the
number, not from the digits of the first pass. Both passes agree, also if rounding
carries into a new power of ten.

## Main definitions

* `Number.numeral` — the numeral that the text of a number is
* `Numeral.Precise` — what the parts of this numeral are
* `Number.formatted` — the text, by two passes

## Main results

* `precise_eq_text` — the text is this numeral
* `precise_numeral` — its value, its digits and when it has an exponent
* `formatted_eq_precise` — two passes give the same text
* `precise_faithful` — the text keeps the number
-/

import ScriptMachine.Proofs.Number.Digits
import ScriptMachine.Proofs.Number.Numerals

namespace ScriptMachine

open Decimal

/-! ## Numerals of decimals -/

/-- A power of ten is written with at least two digits. -/
def powerDigits (k : ℤ) : List Char := (Nat.toDigits 10 k.natAbs).leftpad 2 '0'

namespace Numeral

variable {c p : Nat} {negative : Bool} {power : Option (Bool × List Char)} {k : ℤ}

/-- The digits after the point without the zeros at their end; no fraction if nothing is left. -/
def trimmed (cs : List Char) : Option (List Char) :=
  let kept := dropTrailingZeros cs
  if kept = [] then none else some kept

/-- The numeral of the rational `c / 10 ^ p`, before a power of ten. -/
def ofDecimals (negative : Bool) (c p : Nat) (power : Option (Bool × List Char)) : Numeral where
  negative := negative
  whole := Nat.toDigits 10 (c / 10 ^ p)
  fraction := trimmed (lowDigits p c)
  power := power

theorem joinPoint_eq (whole cs : List Char) :
    joinPoint whole cs = whole ++ fractionText (trimmed cs) := by
  by_cases kept : dropTrailingZeros cs = [] <;> simp [joinPoint, trimmed, fractionText, kept]

theorem getD_trimmed (cs : List Char) : (trimmed cs).getD [] = dropTrailingZeros cs := by
  by_cases kept : dropTrailingZeros cs = [] <;> simp [trimmed, kept]

theorem mem_trimmed_iff {cs ds : List Char} :
    ds ∈ trimmed cs ↔ ds ≠ [] ∧ dropTrailingZeros cs = ds := by
  simp only [trimmed, Option.mem_def, Option.ite_none_left_eq_some, Option.some.injEq]
  exact and_congr_left fun same => same ▸ Iff.rfl

theorem isDigits_toDigits (n : Nat) : IsDigits (Nat.toDigits 10 n) :=
  ⟨Nat.toDigits_ne_nil, fun _ mem => Nat.isDigit_of_mem_toDigits (by decide) (by decide) mem⟩

theorem length_powerDigits (k : ℤ) : 2 ≤ (powerDigits k).length := by
  rw [powerDigits, List.length_leftpad]
  exact le_max_left ..

theorem isDigits_powerDigits (k : ℤ) : IsDigits (powerDigits k) := by
  refine ⟨List.ne_nil_of_length_pos (by have := length_powerDigits k; omega), fun c mem => ?_⟩
  rcases List.mem_append.mp mem with zero | digit
  · rw [List.eq_of_mem_replicate zero]
    rfl
  · exact (isDigits_toDigits _).2 c digit

theorem ofDigitChars_powerDigits (k : ℤ) : Nat.ofDigitChars 10 (powerDigits k) 0 = k.natAbs := by
  rw [powerDigits, List.leftpad, Nat.ofDigitChars_append, Nat.ofDigitChars_replicate_zero,
    Nat.mul_zero, Nat.ofDigitChars_ten_toDigits]

theorem text_ofDecimals : (ofDecimals negative c p power).text =
    String.ofList ((if negative then ['-'] else []) ++ (laidOut c p ++ powerText power)) := by
  rw [laidOut, joinPoint_eq, List.append_assoc]
  rfl

theorem wellFormed_ofDecimals (digits : ∀ below ds, power = some (below, ds) → IsDigits ds) :
    (ofDecimals negative c p power).WellFormed := by
  refine ⟨isDigits_toDigits _, fun ds mem => ?_, digits⟩
  obtain ⟨ne, rfl⟩ := mem_trimmed_iff.mp mem
  exact ⟨ne, fun c mem => isDigit_of_mem_lowDigits ((List.rdropWhile_prefix _ _).subset mem)⟩

theorem absValue_ofDecimals : (ofDecimals negative c p power).absValue =
    c / 10 ^ p * 10 ^ (ofDecimals negative c p power).exponent := by
  have split := div_eq_add_mod c (Nat.pow_pos (by decide) : 0 < 10 ^ p)
  push_cast at split
  rw [absValue, decimals]
  simp only [ofDecimals]
  rw [getD_trimmed, ofDigitChars_dropTrailingZeros, Nat.ofDigitChars_ten_toDigits,
    ofDigitChars_lowDigits, length_lowDigits, ← split]

theorem exponent_ofDecimals_none : (ofDecimals negative c p none).exponent = 0 := rfl

theorem exponent_ofDecimals_some :
    (ofDecimals negative c p (some (decide (k < 0), powerDigits k))).exponent = k := by
  have digits := ofDigitChars_powerDigits k
  by_cases below : k < 0 <;> simp only [exponent, ofDecimals, below, decide_true, decide_false,
    digits] <;> omega

/-- No digit of the integer part is dropped. -/
theorem whole_ofDecimals : (ofDecimals negative c p power).whole =
    Nat.toDigits 10 ⌊(ofDecimals negative c p power).absValue /
      10 ^ (ofDecimals negative c p power).exponent⌋₊ := by
  have scale : (10 : ℚ) ^ (ofDecimals negative c p power).exponent ≠ 0 := by positivity
  have floor := Nat.floor_div_eq_div (K := ℚ) c (10 ^ p)
  rw [absValue_ofDecimals, mul_div_cancel_right₀ _ scale]
  push_cast at floor
  rw [floor]
  rfl

/-- A fraction has a digit, and does not end in zero. -/
theorem fraction_ofDecimals : ∀ ds ∈ (ofDecimals negative c p power).fraction,
    ds ≠ [] ∧ ds.getLast? ≠ some '0' := by
  intro ds mem
  obtain ⟨ne, rfl⟩ := mem_trimmed_iff.mp mem
  refine ⟨ne, fun last => ?_⟩
  have stop := List.rdropWhile_last_not (· == '0') (lowDigits p c) ne
  rw [List.getLast?_eq_some_getLast ne, Option.some.injEq] at last
  exact stop (by rw [beq_iff_eq]; exact last)

/-- The numeral is what seventeen significant digits of a number give. Its powers of ten are those
after rounding. -/
structure Precise (t : Numeral) (x : Number) : Prop where
  negative : t.negative = x.isNegative
  rounds : Rounds (10 ^ (Int.log 10 |x.value| - 16)) x.value t.value
  /-- The power of ten is written exactly for small and for large magnitudes. -/
  power : t.power.isSome ↔ Int.log 10 |t.value| < -4 ∨ 17 ≤ Int.log 10 |t.value|
  /-- It is the power of ten of the first digit, with a sign and at least two digits. -/
  exponent : ∀ below ds, t.power = some (below, ds) →
    t.exponent = Int.log 10 |t.value| ∧ (below = true ↔ t.exponent < 0) ∧ 2 ≤ ds.length
  /-- All digits of the integer part are written, none of them in front of the first one. -/
  whole : t.whole = Nat.toDigits 10 ⌊|t.value| / 10 ^ t.exponent⌋₊
  fraction : ∀ ds ∈ t.fraction, ds ≠ [] ∧ ds.getLast? ≠ some '0'

end Numeral

namespace Number

variable {x y : Number}

open Numeral

/-! ## The numeral of a number -/

/-- The numeral that the text of a finite number is. -/
def numeral (x : Number) : Numeral :=
  let d := x.preciseDecimal
  if x.isZero then ofDecimals x.isNegative 0 0 none
  else if isPositional d then
    ofDecimals x.isNegative d.coefficient (-d.exponent).toNat none
  else
    ofDecimals x.isNegative d.coefficient (Nat.log 10 d.coefficient)
      (some (decide (d.leading < 0), powerDigits d.leading))

theorem exists_ofDecimals (x : Number) :
    ∃ c p power, x.numeral = ofDecimals x.isNegative c p power := by
  rw [numeral]
  split_ifs <;> exact ⟨_, _, _, rfl⟩

theorem negative_numeral (x : Number) : x.numeral.negative = x.isNegative := by
  obtain ⟨c, p, power, eq⟩ := exists_ofDecimals x
  rw [eq]
  rfl

theorem wellFormed_numeral (x : Number) : x.numeral.WellFormed := by
  rw [numeral]
  split_ifs
  · exact wellFormed_ofDecimals (by simp)
  · exact wellFormed_ofDecimals (by simp)
  · refine wellFormed_ofDecimals fun below ds some => ?_
    cases some
    exact isDigits_powerDigits _

theorem not_isPositional_iff {d : Decimal} :
    ¬ isPositional d ↔ d.leading < -4 ∨ 17 ≤ d.leading := by
  rw [isPositional, Bool.and_eq_true, decide_eq_true_eq, decide_eq_true_eq]
  omega

section Nonzero

variable (nonzero : x.value ≠ 0)
include nonzero

theorem preciseDecimal_coefficient_pos : 0 < x.preciseDecimal.coefficient :=
  significant_coefficient_pos 16 (ratio_fst_pos (value_ne_zero_iff.mp nonzero)) (ratio_snd_pos x)

theorem preciseDecimal_exponent :
    x.preciseDecimal.exponent = Int.log 10 |x.value| - 16 := by
  rw [abs_value, ← ratio_eq]
  exact significant_exponent 16 (ratio_fst_pos (value_ne_zero_iff.mp nonzero)) (ratio_snd_pos x)

theorem rounds_preciseDecimal :
    Rounds (10 ^ (Int.log 10 |x.value| - 16)) |x.value| x.preciseDecimal.value := by
  rw [abs_value, ← ratio_eq]
  exact rounds_significant 16 (ratio_fst_pos (value_ne_zero_iff.mp nonzero)) (ratio_snd_pos x)

theorem rounds_preciseDecimal_leading :
    Rounds (10 ^ (x.preciseDecimal.leading - 16)) |x.value| x.preciseDecimal.value := by
  rw [abs_value, ← ratio_eq]
  exact rounds_significant_leading 16 (ratio_fst_pos (value_ne_zero_iff.mp nonzero))
    (ratio_snd_pos x)

/-- The power of ten of the first digit is that of the number, or one more after a carry. -/
theorem preciseDecimal_leading_mem :
    x.preciseDecimal.leading = Int.log 10 |x.value| ∨
      x.preciseDecimal.leading = Int.log 10 |x.value| + 1 := by
  rw [abs_value, ← ratio_eq]
  exact (significant_leading 16 (ratio_fst_pos (value_ne_zero_iff.mp nonzero))
    (ratio_snd_pos x)).imp_right And.left

theorem numeral_of_isPositional (positional : isPositional x.preciseDecimal) :
    x.numeral = ofDecimals x.isNegative x.preciseDecimal.coefficient
      (-x.preciseDecimal.exponent).toNat none := by
  have isZero : ¬ x.isZero = true := isZero_iff.not.mpr (value_ne_zero_iff.mp nonzero).ne'
  rw [numeral, if_neg isZero, if_pos positional]

theorem numeral_of_not_isPositional (exponential : ¬ isPositional x.preciseDecimal) :
    x.numeral = ofDecimals x.isNegative x.preciseDecimal.coefficient
      (Nat.log 10 x.preciseDecimal.coefficient)
      (some (decide (x.preciseDecimal.leading < 0), powerDigits x.preciseDecimal.leading)) := by
  have isZero : ¬ x.isZero = true := isZero_iff.not.mpr (value_ne_zero_iff.mp nonzero).ne'
  rw [numeral, if_neg isZero, if_neg exponential]

/-- There are seventeen digits, and a zero after them if rounding carries. -/
theorem preciseDecimal_digits :
    ∃ c j : Nat, x.preciseDecimal.coefficient = c * 10 ^ j ∧ Nat.log 10 c = 16 ∧
      x.preciseDecimal.exponent + j = x.preciseDecimal.leading - 16 :=
  significant_digits 16 (ratio_fst_pos (value_ne_zero_iff.mp nonzero)) (ratio_snd_pos x)

/-- Where digits are laid out around the point, all seventeen reach it. -/
theorem preciseDecimal_exponent_of_isPositional (positional : isPositional x.preciseDecimal) :
    x.preciseDecimal.exponent = -((-x.preciseDecimal.exponent).toNat : ℤ) := by
  have exponent := preciseDecimal_exponent nonzero
  have leading := preciseDecimal_leading_mem nonzero
  simp only [isPositional, Bool.and_eq_true, decide_eq_true_eq] at positional
  omega

theorem absValue_numeral : x.numeral.absValue = x.preciseDecimal.value := by
  by_cases positional : isPositional x.preciseDecimal
  · rw [numeral_of_isPositional nonzero positional, absValue_ofDecimals, exponent_ofDecimals_none]
    refine (value_eq_div ?_).symm
    rw [zero_sub]
    exact preciseDecimal_exponent_of_isPositional nonzero positional
  · rw [numeral_of_not_isPositional nonzero positional, absValue_ofDecimals,
      exponent_ofDecimals_some]
    refine (value_eq_div ?_).symm
    rw [leading_eq_add, add_sub_cancel_right]

theorem rounds_numeral :
    Rounds (10 ^ (Int.log 10 |x.value| - 16)) x.value x.numeral.value := by
  have rounds := rounds_preciseDecimal nonzero
  rw [← absValue_numeral nonzero] at rounds
  rw [Numeral.value, negative_numeral]
  generalize Int.log 10 |x.value| = power at rounds ⊢
  rw [abs_value] at rounds
  rw [Number.value]
  split_ifs
  · exact rounds.neg
  · exact rounds

theorem log_numeral : Int.log 10 |x.numeral.value| = x.preciseDecimal.leading := by
  rw [Numeral.abs_value, absValue_numeral nonzero,
    leading_eq (preciseDecimal_coefficient_pos nonzero)]

/-- The value, the digits and the exponent of the numeral. -/
theorem precise_numeral : x.numeral.Precise x where
  negative := negative_numeral x
  rounds := rounds_numeral nonzero
  power := by
    rw [log_numeral nonzero, ← not_isPositional_iff]
    by_cases positional : isPositional x.preciseDecimal
    · rw [numeral_of_isPositional nonzero positional]
      exact iff_of_false Bool.false_ne_true (not_not.mpr positional)
    · rw [numeral_of_not_isPositional nonzero positional]
      exact iff_of_true rfl positional
  exponent below ds written := by
    rw [log_numeral nonzero]
    by_cases positional : isPositional x.preciseDecimal
    · rw [numeral_of_isPositional nonzero positional] at written
      cases written
    · rw [numeral_of_not_isPositional nonzero positional] at written ⊢
      cases written
      rw [exponent_ofDecimals_some]
      exact ⟨rfl, decide_eq_true_iff, length_powerDigits _⟩
  whole := by
    obtain ⟨c, p, power, eq⟩ := exists_ofDecimals x
    rw [Numeral.abs_value, eq]
    exact whole_ofDecimals
  fraction := by
    obtain ⟨c, p, power, eq⟩ := exists_ofDecimals x
    rw [eq]
    exact fraction_ofDecimals

end Nonzero

/-- The text that a finite number contributes is its numeral. -/
theorem precise_eq_text (finite : x.IsFinite) : x.precise = x.numeral.text := by
  rw [precise, if_neg (by simp [finite.isNaN]), if_neg (by simp [finite.isInfinite])]
  by_cases zero : x.isZero
  · rw [if_pos zero, numeral, if_pos zero, text_ofDecimals]
    rfl
  have nonzero : x.value ≠ 0 :=
    value_ne_zero_iff.mpr (Nat.pos_of_ne_zero (isZero_iff.not.mp zero))
  have pos := preciseDecimal_coefficient_pos nonzero
  by_cases positional : isPositional x.preciseDecimal
  · have exponent := preciseDecimal_exponent_of_isPositional nonzero positional
    rw [if_neg zero, if_pos positional, numeral_of_isPositional nonzero positional,
      text_ofDecimals, positional_eq pos exponent]
    simp [signText, powerText]
  · rw [if_neg zero, if_neg positional, numeral_of_not_isPositional nonzero positional,
      text_ofDecimals, exponential, joinPoint_take_drop pos]
    simp [signText, powerText, powerDigits]

/-! ## Two passes -/

/-- The first pass: seventeen digits with a point after the first one, and the power of ten of the
first one. A carry leaves an eighteenth digit, which is a zero. -/
def scientific (x : Number) : List Char × ℤ :=
  let d := x.preciseDecimal
  let ds := d.digits.take 17
  (x.signText ++ (ds.take 1 ++ '.' :: ds.drop 1), d.leading)

/-- The second pass: the number rounded to a number of decimals, with no point if there are none. -/
def fixedPoint (x : Number) (decimals : Nat) : List Char :=
  let scaled := scaleByTen x.ratio.1 x.ratio.2 decimals
  let c := roundHalfEven scaled.1 scaled.2
  x.signText ++ (Nat.toDigits 10 (c / 10 ^ decimals) ++
    if decimals = 0 then [] else '.' :: lowDigits decimals c)

/-- The text without zeros and a point at its end, if it has a point. -/
def stripFraction (cs : List Char) : List Char :=
  if '.' ∈ cs then (cs.rdropWhile (· == '0')).rdropWhile (· == '.') else cs

/-- The text of a finite number other than zero, by two passes. -/
def formatted (x : Number) : String :=
  let (mantissa, power) := x.scientific
  String.ofList <|
    if power < -4 ∨ 17 ≤ power then
      stripFraction mantissa ++ powerText (some (decide (power < 0), powerDigits power))
    else stripFraction (x.fixedPoint (16 - power).toNat)

theorem formatted_eq (x : Number) : x.formatted = String.ofList (
    let power := x.preciseDecimal.leading
    if power < -4 ∨ 17 ≤ power then
      stripFraction x.scientific.1 ++ powerText (some (decide (power < 0), powerDigits power))
    else stripFraction (x.fixedPoint (16 - power).toNat)) := rfl

theorem rdropWhile_append {p : Char → Bool} {cs : List Char} (front : List Char) (ne : cs ≠ [])
    (all : ∀ c ∈ cs, p c = false) : (front ++ cs).rdropWhile p = front ++ cs := by
  refine List.rdropWhile_eq_self_iff.mpr fun _ => ?_
  rw [List.getLast_append_of_ne_nil _ ne]
  simp [all _ (List.getLast_mem ne)]

theorem not_point_of_isDigit {c : Char} (digit : c.isDigit = true) : (c == '.') = false := by
  refine beq_false_of_ne ?_
  rintro rfl
  exact absurd digit (by decide)

theorem dropTrailingZeros_point (front cs : List Char) :
    dropTrailingZeros (front ++ '.' :: cs) = front ++ '.' :: dropTrailingZeros cs := by
  rw [dropTrailingZeros, List.reverse_append, List.reverse_cons, List.append_assoc,
    List.dropWhile_append, dropTrailingZeros]
  split_ifs with empty
  · simp [List.isEmpty_iff.mp empty]
  · simp

/-- After a whole part and a point, stripping keeps what joining keeps. -/
theorem stripFraction_point {whole fraction : List Char} (front : List Char)
    (digits : IsDigits whole) (digits' : ∀ c ∈ fraction, c.isDigit = true) :
    stripFraction (front ++ (whole ++ '.' :: fraction)) = front ++ joinPoint whole fraction := by
  have strip : (front ++ (whole ++ '.' :: fraction)).rdropWhile (· == '0') =
      front ++ whole ++ '.' :: dropTrailingZeros fraction := by
    rw [← List.append_assoc]
    exact dropTrailingZeros_point _ _
  have kept : ∀ c ∈ dropTrailingZeros fraction, (c == '.') = false := fun c mem =>
    not_point_of_isDigit (digits' c ((List.rdropWhile_prefix _ _).subset mem))
  rw [stripFraction, if_pos (by simp), strip, joinPoint]
  -- If nothing is left behind the point, it goes too, and a digit of the whole part comes last.
  by_cases empty : dropTrailingZeros fraction = []
  · rw [empty, List.isEmpty_nil, if_pos rfl, List.rdropWhile_concat_pos _ _ _ rfl]
    exact rdropWhile_append front digits.1 fun c mem => not_point_of_isDigit (digits.2 c mem)
  · have point := rdropWhile_append (p := (· == '.')) (front ++ whole ++ ['.']) empty kept
    rw [if_neg (by simpa using empty)]
    simpa using point

/-- Without decimals there is no point, and zeros of the whole part stay. -/
theorem stripFraction_laidOut {front : List Char} (c p : Nat) (none : '.' ∉ front) :
    stripFraction (front ++ (Nat.toDigits 10 (c / 10 ^ p) ++
      if p = 0 then [] else '.' :: lowDigits p c)) = front ++ laidOut c p := by
  have digits := isDigits_toDigits (c / 10 ^ p)
  split_ifs with zero
  · have none' : '.' ∉ Nat.toDigits 10 (c / 10 ^ p) := fun mem =>
      absurd (digits.2 _ mem) (by decide)
    rw [stripFraction, if_neg (by simp [none, none']), laidOut, zero]
    simp [lowDigits, joinPoint, dropTrailingZeros]
  · exact stripFraction_point front digits fun c mem => isDigit_of_mem_lowDigits mem

theorem not_mem_signText (x : Number) : '.' ∉ x.signText := by
  rw [signText]
  split_ifs <;> decide

section Nonzero

variable (nonzero : x.value ≠ 0)
include nonzero

/-- The seventeen digits of the first pass are all digits but the zero that a carry leaves. -/
theorem stripFraction_scientific : stripFraction x.scientific.1 = x.signText ++
    laidOut x.preciseDecimal.coefficient (Nat.log 10 x.preciseDecimal.coefficient) := by
  -- The digits are the seventeen of `c`, and a zero if rounding carries.
  obtain ⟨c, j, coefficient, log, -⟩ := preciseDecimal_digits nonzero
  have pos : 0 < c := Nat.pos_of_ne_zero (by rintro rfl; simp at log)
  have count : (Nat.toDigits 10 c).length = 17 := (digitCount_eq c).trans (by rw [log])
  have digits : x.preciseDecimal.digits = Nat.toDigits 10 c ++ List.replicate j '0' := by
    rw [Decimal.digits, coefficient, toDigits_mul_pow pos]
  have first : IsDigits ((Nat.toDigits 10 c).take 1) :=
    ⟨List.ne_nil_of_length_pos (by rw [List.length_take]; omega), fun d mem =>
      (isDigits_toDigits c).2 d (List.mem_of_mem_take mem)⟩
  rw [← joinPoint_take_drop (preciseDecimal_coefficient_pos nonzero), scientific]
  simp only [digits, List.take_left' count]
  rw [stripFraction_point _ first fun c mem =>
    (isDigits_toDigits _).2 c (List.mem_of_mem_drop mem)]
  rw [List.take_append_of_le_length (by omega), List.drop_append_of_le_length (by omega)]
  rw [joinPoint, joinPoint, dropTrailingZeros_append]

/-- The second pass rounds to the digits of the first. -/
theorem stripFraction_fixedPoint (positional : isPositional x.preciseDecimal) :
    stripFraction (x.fixedPoint (16 - x.preciseDecimal.leading).toNat) = x.signText ++
      laidOut x.preciseDecimal.coefficient (-x.preciseDecimal.exponent).toNat := by
  obtain ⟨c, j, coefficient, -, exponent⟩ := preciseDecimal_digits nonzero
  have leading := not_isPositional_iff.not.mp (not_not.mpr positional)
  obtain ⟨p, decimals⟩ : ∃ p : ℕ, 16 - x.preciseDecimal.leading = p :=
    Int.eq_ofNat_of_zero_le (by omega)
  have unit : x.preciseDecimal.leading - 16 = -p := by omega
  have rounded : x.preciseDecimal.value = c * 10 ^ (-p : ℤ) := by
    rw [← unit, ← exponent, Decimal.value, coefficient, zpow_add₀ (by norm_num), zpow_natCast]
    push_cast
    ring
  -- Both passes round the number to the same unit, so they round to the same multiple of it.
  have first := rounds_preciseDecimal_leading nonzero
  have second := rounds_scaleByTen x.ratio.1 (ratio_snd_pos x) p
  rw [unit] at first
  rw [ratio_eq, ← abs_value] at second
  have same : roundHalfEven (scaleByTen x.ratio.1 x.ratio.2 p).1
      (scaleByTen x.ratio.1 x.ratio.2 p).2 = c := by
    have values := second.eq (by positivity) first
    rw [rounded, Decimal.value] at values
    exact_mod_cast mul_right_cancel₀ (by positivity) values
  have places : (-x.preciseDecimal.exponent).toNat = p + j := by omega
  rw [places, coefficient, laidOut_mul_pow, fixedPoint, decimals, Int.toNat_natCast, same]
  exact stripFraction_laidOut c p (not_mem_signText x)

theorem formatted_eq_precise (finite : x.IsFinite) : x.formatted = x.precise := by
  rw [precise_eq_text finite, formatted_eq]
  by_cases positional : isPositional x.preciseDecimal
  · rw [if_neg (not_isPositional_iff.not.mp (not_not.mpr positional)),
      stripFraction_fixedPoint nonzero positional, numeral_of_isPositional nonzero positional,
      text_ofDecimals]
    simp [signText, powerText]
  · rw [if_pos (not_isPositional_iff.mp positional), stripFraction_scientific nonzero,
      numeral_of_not_isPositional nonzero positional, text_ofDecimals, signText, List.append_assoc]

end Nonzero

/-! ## Reading the text back -/

theorem value_numeral_of_zero (zero : x.value = 0) : x.numeral.value = 0 := by
  have isZero : x.isZero = true := by
    rw [isZero_iff, ← absValue_eq_zero_iff, ← abs_value, zero, abs_zero]
  rw [← abs_eq_zero, Numeral.abs_value, numeral, if_pos isZero, absValue_ofDecimals]
  simp

/-- Half a unit of the seventeenth digit is less than a `10 ^ 16`th part of the number. -/
theorem close_numeral (x : Number) : Close x.numeral.value x := by
  rw [Close, abs_sub_comm]
  rcases eq_or_ne x.value 0 with zero | nonzero
  · simp [zero, value_numeral_of_zero zero]
  have near := (rounds_numeral nonzero).abs_sub_le
  have lower := ((log_eq_iff (abs_pos.mpr nonzero)).mp rfl).1
  rw [zpow_sub₀ (by norm_num)] at near
  refine near.trans ?_
  gcongr
  norm_num

theorem read?_precise (finite : x.IsFinite) : Numeral.read? x.precise = some x.numeral :=
  read?_eq_some_iff.mpr ⟨wellFormed_numeral x, precise_eq_text finite⟩

/-- The text that a number contributes keeps the number. It is a numeral of the number rounded to
seventeen digits, as two passes give it too. Reading it gives this number and no other, so no other
number has this text. -/
theorem precise_faithful (finite : x.IsFinite) :
    (x.value ≠ 0 → ∃ t, Numeral.read? x.precise = some t ∧ t.Precise x ∧
      x.formatted = x.precise) ∧
    (∀ y, ReadFrom x.precise y ↔ y = x) ∧
    ∀ y : Number, y.IsFinite → y.precise = x.precise → y = x := by
  have read (y : Number) : ReadFrom x.precise y ↔ y = x :=
    readFrom_iff_of_close finite (read?_precise finite) (close_numeral x) (negative_numeral x)
  refine ⟨fun nonzero => ?_, read, fun y finite' same => ?_⟩
  · exact ⟨x.numeral, read?_precise finite, precise_numeral nonzero,
      formatted_eq_precise nonzero finite⟩
  -- Equal texts are read as the same number.
  · have self := (readFrom_iff_of_close finite' (read?_precise finite') (close_numeral y)
      (negative_numeral y)).mpr rfl
    exact (read y).mp (same ▸ self)

/-- The number nearest to `10 ^ -14` lies below it, and rounding to seventeen digits carries. -/
theorem precise_faithful_carry : (⟨0x3d06849b86a12b9b⟩ : Number).IsFinite ∧
    (⟨0x3d06849b86a12b9b⟩ : Number).value ≠ 0 ∧
    (∃ t, Numeral.read? "1e-14" = some t ∧ t.Precise ⟨0x3d06849b86a12b9b⟩) ∧
    ∀ y, ReadFrom "1e-14" y ↔ y = ⟨0x3d06849b86a12b9b⟩ := by
  have finite : (⟨0x3d06849b86a12b9b⟩ : Number).IsFinite := by
    rw [IsFinite]
    decide
  have nonzero : (⟨0x3d06849b86a12b9b⟩ : Number).value ≠ 0 := value_ne_zero_iff.mpr (by decide)
  have text : (⟨0x3d06849b86a12b9b⟩ : Number).precise = "1e-14" := by decide +kernel
  obtain ⟨exact17, read, -⟩ := precise_faithful finite
  obtain ⟨t, read', precise, -⟩ := exact17 nonzero
  exact ⟨finite, nonzero, ⟨t, text ▸ read', precise⟩, text ▸ read⟩

end Number

end ScriptMachine
