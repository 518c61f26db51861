/-
# Numerals

A decimal numeral is a sign, digits, perhaps a point with digits after it, and
perhaps a power of ten: an `e`, a sign and digits. Reading takes a text apart from
the front. A digit never starts the part that follows, so the digits of each part end
where they were written, and reading accepts exactly what writing produces.

A number is read from a text by way of the rational that the numeral stands for.

## Main definitions

* `Numeral` — the parts of a numeral
* `Numeral.text`, `Numeral.read?` — the text of a numeral, and the numeral of a text
* `Numeral.value` — the rational that a numeral stands for
* `Number.ReadFrom` — the number that a text is read as

## Main results

* `read?_eq_some_iff` — reading accepts exactly what writing produces
* `Number.readFrom_iff_of_close` — a numeral close to a number is read as this number
-/

import Mathlib.Data.List.TakeWhile
import ScriptMachine.Proofs.Number.Spacing

namespace ScriptMachine

/-- The parts of a decimal numeral. The power of ten is its digits with the sign before them, which
is set for a power below one. -/
structure Numeral where
  negative : Bool
  whole : List Char
  fraction : Option (List Char)
  power : Option (Bool × List Char)

namespace Numeral

variable {t : Numeral} {ds rest : List Char}

/-! ## Writing -/

/-- A part of a numeral is one digit or more. -/
def IsDigits (ds : List Char) : Prop := ds ≠ [] ∧ ∀ c ∈ ds, c.isDigit = true

structure WellFormed (t : Numeral) : Prop where
  whole : IsDigits t.whole
  fraction : ∀ ds ∈ t.fraction, IsDigits ds
  power : ∀ below ds, t.power = some (below, ds) → IsDigits ds

/-- The point and the digits after it. -/
def fractionText : Option (List Char) → List Char
  | none => []
  | some ds => '.' :: ds

/-- The power of ten as it is written, always with a sign. -/
def powerText : Option (Bool × List Char) → List Char
  | none => []
  | some (below, ds) => 'e' :: (if below then '-' else '+') :: ds

/-- The text of a numeral. -/
def text (t : Numeral) : String :=
  String.ofList ((if t.negative then ['-'] else []) ++
    (t.whole ++ (fractionText t.fraction ++ powerText t.power)))

/-! ## Reading -/

/-- The digits at the front, of which there must be one, and what follows them. -/
def digits? (cs : List Char) : Option (List Char × List Char) :=
  let ds := cs.takeWhile Char.isDigit
  if ds = [] then none else some (ds, cs.dropWhile Char.isDigit)

/-- A point with digits after it, if there is a point. -/
def fraction? : List Char → Option (Option (List Char) × List Char)
  | '.' :: cs => do
    let (ds, rest) ← digits? cs
    return (some ds, rest)
  | cs => some (none, cs)

/-- A power of ten, if there is an `e`. -/
def power? : List Char → Option (Option (Bool × List Char) × List Char)
  | 'e' :: '-' :: cs => do
    let (ds, rest) ← digits? cs
    return (some (true, ds), rest)
  | 'e' :: '+' :: cs => do
    let (ds, rest) ← digits? cs
    return (some (false, ds), rest)
  | cs => some (none, cs)

/-- A minus sign, if there is one. -/
def sign : List Char → Bool × List Char
  | '-' :: cs => (true, cs)
  | cs => (false, cs)

/-- Read a numeral. Nothing may be left of the text. -/
def read? (text : String) : Option Numeral := do
  let (negative, rest) := sign text.toList
  let (whole, rest) ← digits? rest
  let (fraction, rest) ← fraction? rest
  let (power, rest) ← power? rest
  if rest = [] then some ⟨negative, whole, fraction, power⟩ else none

/-- The text does not go on with a digit. -/
def Ends (rest : List Char) : Prop := ∀ c ∈ rest.head?, c.isDigit = false

theorem ends_nil : Ends [] := by simp [Ends]

theorem ends_powerText (power : Option (Bool × List Char)) : Ends (powerText power) := by
  rcases power with - | ⟨below, ds⟩ <;> simp [Ends, powerText]

theorem ends_fractionText (ends : Ends rest) (fraction : Option (List Char)) :
    Ends (fractionText fraction ++ rest) := by
  cases fraction with
  | none => exact ends
  | some ds => simp [Ends, fractionText]

theorem digits?_eq_some_iff {cs : List Char} :
    digits? cs = some (ds, rest) ↔ IsDigits ds ∧ Ends rest ∧ cs = ds ++ rest := by
  constructor
  · intro read
    simp only [digits?, Option.ite_none_left_eq_some, Option.some.injEq, Prod.mk.injEq] at read
    obtain ⟨ne, rfl, rfl⟩ := read
    refine ⟨⟨ne, fun c mem => List.mem_takeWhile_imp mem⟩, fun c head => ?_,
      List.takeWhile_append_dropWhile.symm⟩
    have stop := List.head?_dropWhile_not Char.isDigit cs
    simpa [Option.mem_def.mp head] using stop
  · rintro ⟨⟨ne, all⟩, ends, rfl⟩
    have stop : rest.takeWhile Char.isDigit = [] := by
      cases rest with
      | nil => rfl
      | cons c cs => simp [ends c rfl]
    have stop' : rest.dropWhile Char.isDigit = rest := by
      cases rest with
      | nil => rfl
      | cons c cs => simp [ends c rfl]
    simp only [digits?, List.takeWhile_append_of_pos all, List.dropWhile_append_of_pos all, stop,
      stop', List.append_nil, if_neg ne]

theorem fraction?_eq_some_iff {cs : List Char} {fraction : Option (List Char)}
    {power : Option (Bool × List Char)} :
    fraction? cs = some (fraction, powerText power) ↔
      (∀ ds ∈ fraction, IsDigits ds) ∧ cs = fractionText fraction ++ powerText power := by
  constructor
  · intro read
    unfold fraction? at read
    split at read
    · obtain ⟨⟨ds, rest⟩, digits, same⟩ := Option.bind_eq_some_iff.mp read
      cases same
      obtain ⟨all, -, rfl⟩ := digits?_eq_some_iff.mp digits
      exact ⟨by simpa using all, rfl⟩
    · cases read
      exact ⟨by simp, rfl⟩
  · rintro ⟨all, rfl⟩
    cases fraction with
    | none => rcases power with - | ⟨below, ds⟩ <;> rfl
    | some ds =>
      have digits := digits?_eq_some_iff.mpr ⟨all ds rfl, ends_powerText power, rfl⟩
      simp [fractionText, fraction?, digits]

theorem power?_eq_some_iff {cs : List Char} {power : Option (Bool × List Char)} :
    power? cs = some (power, []) ↔
      (∀ below ds, power = some (below, ds) → IsDigits ds) ∧ cs = powerText power := by
  constructor
  · intro read
    unfold power? at read
    split at read
    case h_1 | h_2 =>
      obtain ⟨⟨ds, rest⟩, digits, same⟩ := Option.bind_eq_some_iff.mp read
      cases same
      obtain ⟨all, -, rfl⟩ := digits?_eq_some_iff.mp digits
      exact ⟨by simpa using all, by simp [powerText]⟩
    case h_3 =>
      cases read
      exact ⟨by simp, rfl⟩
  · rintro ⟨all, rfl⟩
    rcases power with - | ⟨below, ds⟩
    · rfl
    · have digits := digits?_eq_some_iff.mpr ⟨all below ds rfl, ends_nil, (List.append_nil ds).symm⟩
      cases below <;> simp [powerText, power?, digits]

/-- A sign is read before digits as it was written. -/
theorem sign_append (negative : Bool) (digits : IsDigits ds) :
    sign ((if negative then ['-'] else []) ++ (ds ++ rest)) = (negative, ds ++ rest) := by
  cases negative with
  | true => rfl
  | false =>
    obtain ⟨ne, all⟩ := digits
    obtain ⟨c, cs, rfl⟩ := List.exists_cons_of_ne_nil ne
    have digit : c ≠ '-' := by
      rintro rfl
      exact absurd (all '-' List.mem_cons_self) (by decide)
    simp [sign, digit]

theorem append_sign (cs : List Char) :
    (if (sign cs).1 then ['-'] else []) ++ (sign cs).2 = cs := by
  unfold sign
  split <;> rfl

/-- Reading accepts the texts of numerals, and nothing else. -/
theorem read?_eq_some_iff {text : String} :
    read? text = some t ↔ t.WellFormed ∧ text = t.text := by
  constructor
  · intro read
    simp only [read?, Option.bind_eq_bind, Option.bind_eq_some_iff, Prod.exists,
      Option.ite_none_right_eq_some, Option.some.injEq] at read
    obtain ⟨whole, _, first, fraction, _, second, power, _, third, rfl, rfl⟩ := read
    obtain ⟨digits', rfl⟩ := power?_eq_some_iff.mp third
    obtain ⟨digits'', rfl⟩ := fraction?_eq_some_iff.mp second
    obtain ⟨digits, -, split⟩ := digits?_eq_some_iff.mp first
    refine ⟨⟨digits, digits'', digits'⟩, ?_⟩
    rw [Numeral.text, ← split, append_sign, String.ofList_toList]
  · rintro ⟨⟨digits, digits', digits''⟩, rfl⟩
    have ends := ends_fractionText (ends_powerText t.power) t.fraction
    have first := digits?_eq_some_iff.mpr ⟨digits, ends, rfl⟩
    have second : fraction? (fractionText t.fraction ++ powerText t.power) =
        some (t.fraction, powerText t.power) := fraction?_eq_some_iff.mpr ⟨digits', rfl⟩
    have third := power?_eq_some_iff.mpr ⟨digits'', rfl⟩
    simp [read?, Numeral.text, String.toList_ofList, sign_append _ digits, first, second, third]

/-! ## Values -/

/-- The power of ten that is written; the zeroth if none is. -/
def exponent (t : Numeral) : ℤ :=
  match t.power with
  | none => 0
  | some (true, ds) => -Nat.ofDigitChars 10 ds 0
  | some (false, ds) => Nat.ofDigitChars 10 ds 0

/-- The digits after the point; none if there is no point. -/
def decimals (t : Numeral) : List Char := t.fraction.getD []

/-- The rational that a numeral stands for, without its sign. -/
def absValue (t : Numeral) : ℚ :=
  (Nat.ofDigitChars 10 t.whole 0 +
    Nat.ofDigitChars 10 t.decimals 0 / 10 ^ t.decimals.length) * 10 ^ t.exponent

/-- The rational that a numeral stands for. -/
def value (t : Numeral) : ℚ := if t.negative then -t.absValue else t.absValue

theorem abs_value (t : Numeral) : |t.value| = t.absValue := by
  have nonneg : 0 ≤ t.absValue := by
    rw [absValue]
    positivity
  exact Number.abs_signed nonneg t.negative

end Numeral

namespace Number

variable {x y : Number} {t : Numeral} {text : String}

/-- The text is read as the number: it is a numeral, and the number is nearest to what the numeral
stands for and has its sign, which tells the two zeros apart. -/
def ReadFrom (text : String) (x : Number) : Prop :=
  ∃ t, Numeral.read? text = some t ∧ Nearest t.value x ∧ x.isNegative = t.negative

theorem readFrom_iff_of_close (finite : x.IsFinite) (read : Numeral.read? text = some t)
    (close : Close t.value x) (sign : t.negative = x.isNegative) : ReadFrom text y ↔ y = x := by
  rw [← nearest_iff_of_close finite close, ← sign]
  constructor
  · rintro ⟨t', read', nearest⟩
    cases read.symm.trans read'
    exact nearest
  · exact fun nearest => ⟨t, read, nearest⟩

end Number

end ScriptMachine
