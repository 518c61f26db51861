/-
# Reading code back

An item is an instruction together with the captures that follow it: those of
the function constant, if the instruction makes a closure of one. Items are
read one after the other, by the same readers that the machine fetches with.
What is read depends on the bytes alone: a number that is written in some
bytes is read back from them, wherever they stand in the code, and so are the
operands of an instruction and its captures.

## Main definitions

* `Chunk.item?`, `Chunk.items?`: the item at an offset, and all items from an
  offset up to the end of the code.
* `Chunk.decoded`: how far an item is read, even if it is cut off.
* `Operand.bytes`, `Capture.bytes`: how operands and captures are written.

## Main results

* `Reader.bigEndian?_eq_none_iff`: a number cannot be read if the code ends
  before its last byte, and only then.
* `Reader.bigEndian?_of_toList`, `Reader.operands_of_toList`,
  `Reader.captures_of_toList`: numbers, operands and captures are read back.
-/

import Mathlib.Algebra.Order.Ring.Nat
import Mathlib.Data.List.Forall2
import Mathlib.Data.List.Induction
import ScriptMachine.Bytecode.Chunk
import ScriptMachine.Bytecode.Reader

namespace ScriptMachine

/-- The index of the constant that an instruction makes a closure of. -/
def Instruction.closed? : Instruction → Option Nat
  | ⟨.closure, index :: _⟩ => some index
  | _ => none

/-- An instruction with the captures that follow it. -/
structure Chunk.Item where
  instruction : Instruction
  captures : List Capture
  deriving DecidableEq, Repr

namespace Chunk

variable {V : Type}

/-- How many captures follow an instruction: those of the function constant that it makes a closure
of, and none otherwise. How many a constant has is told by `count`. -/
def captureCount (count : V → Nat) (c : Chunk V) (i : Instruction) : Nat :=
  ((i.closed?.bind c.constant?).map count).getD 0

/-- The item at an offset, and the offset after it. -/
def item? (count : V → Nat) (c : Chunk V) (ip : Nat) : Option (Item × Nat) :=
  match Reader.instruction c.code ip with
  | (.error _, _) => none
  | (.ok instruction, next) =>
    let (captures, after) := Reader.captures c.code (c.captureCount count instruction) next
    captures.map fun captures => (⟨instruction, captures⟩, after)

/-- The offset after the last byte that is read of the item at an offset, whether the item is whole
or cut off. -/
def decoded (count : V → Nat) (c : Chunk V) (ip : Nat) : Nat :=
  match Reader.instruction c.code ip with
  | (.error _, next) => next
  | (.ok instruction, next) => (Reader.captures c.code (c.captureCount count instruction) next).2

/-- All items from an offset up to exactly the end of the code, if they are at most `bound`. -/
def items? (count : V → Nat) (c : Chunk V) : (bound ip : Nat) → Option (List Item)
  | 0, ip => if ip = c.size then some [] else none
  | bound + 1, ip =>
    if ip = c.size then some []
    else
      (c.item? count ip).bind fun (item, next) => (items? count c bound next).map (item :: ·)

/-- Instructions that make no closure have no captures. -/
theorem captureCount_of_ne {op : Opcode} (count : V → Nat) (c : Chunk V) (values : List Nat)
    (other : op ≠ .closure) : c.captureCount count ⟨op, values⟩ = 0 := by
  have none : Instruction.closed? ⟨op, values⟩ = none := by
    unfold Instruction.closed?
    split
    · rename_i same
      exact absurd (congrArg Instruction.opcode same) other
    · rfl
  rw [captureCount, none]
  rfl

end Chunk

/-! ## Bytes of operands and captures -/

/-- The number that is written in the given bytes, the most significant one first. -/
def number (bytes : List UInt8) : Nat := bytes.foldl (fun n byte => n * 256 + byte.toNat) 0

@[simp] theorem number_concat (bytes : List UInt8) (byte : UInt8) :
    number (bytes ++ [byte]) = number bytes * 256 + byte.toNat := by
  simp [number]

/-- A number fits in the bytes that it is written in. -/
theorem number_lt (bytes : List UInt8) : number bytes < 256 ^ bytes.length := by
  induction bytes using List.reverseRecOn with
  | nil => simp [number]
  | append_singleton bytes byte ih =>
    have small := byte.toNat_lt
    simp only [number_concat, List.length_append, List.length_singleton, Nat.pow_succ]
    omega

/-- Writing the number of some bytes gives these bytes. -/
theorem bigEndian_number (bytes : List UInt8) :
    Chunk.bigEndian bytes.length (number bytes) = bytes := by
  induction bytes using List.reverseRecOn with
  | nil => rfl
  | append_singleton bytes byte ih =>
    have small := byte.toNat_lt
    have high : (number bytes * 256 + byte.toNat) / 256 = number bytes := by omega
    have low : UInt8.ofNat (number bytes * 256 + byte.toNat) = byte := by
      apply UInt8.toNat_inj.1
      simp
    simp only [number_concat, List.length_append, List.length_singleton, Chunk.bigEndian, high, ih,
      low]

namespace Operand

/-- The operand values in the given bytes. -/
def values : List Operand → List UInt8 → List Nat
  | [], _ => []
  | operand :: rest, bytes =>
    number (bytes.take operand.kind.width) :: values rest (bytes.drop operand.kind.width)

/-- The bytes of operand values. -/
def bytes : List Operand → List Nat → List UInt8
  | operand :: rest, value :: values =>
    Chunk.bigEndian operand.kind.width value ++ bytes rest values
  | _, _ => []

/-- The bytes of all the given operands together. -/
def widths (operands : List Operand) : Nat := (operands.map (·.kind.width)).sum

/-- There is one value for each operand, and it fits in the bytes of the operand. -/
abbrev Fit : List Operand → List Nat → Prop :=
  List.Forall₂ fun operand value => value < 256 ^ operand.kind.width

theorem length_bytes {operands : List Operand} {values : List Nat} (fit : Fit operands values) :
    (bytes operands values).length = widths operands := by
  induction fit with
  | nil => rfl
  | cons _ _ ih => simp [bytes, ih, widths]

/-- Values that were taken from bytes fit in them. -/
theorem fit_values (operands : List Operand) (args : List UInt8)
    (full : args.length = widths operands) : Fit operands (values operands args) := by
  induction operands generalizing args with
  | nil => exact .nil
  | cons operand rest ih =>
    simp only [widths, List.map_cons, List.sum_cons] at full
    have taken : (args.take operand.kind.width).length = operand.kind.width := by
      simp only [List.length_take]; omega
    refine .cons ?_ (ih _ ?_)
    · simpa only [taken] using number_lt (args.take operand.kind.width)
    · simp only [List.length_drop, widths]; omega

/-- Writing the values that were taken from bytes gives these bytes. -/
theorem bytes_values (operands : List Operand) (args : List UInt8)
    (full : args.length = widths operands) : bytes operands (values operands args) = args := by
  induction operands generalizing args with
  | nil => exact (List.eq_nil_of_length_eq_zero full).symm
  | cons operand rest ih =>
    simp only [widths, List.map_cons, List.sum_cons] at full
    have taken : (args.take operand.kind.width).length = operand.kind.width := by
      simp only [List.length_take]; omega
    have dropped : (args.drop operand.kind.width).length = widths rest := by
      simp only [List.length_drop, widths]; omega
    have first := bigEndian_number (args.take operand.kind.width)
    rw [taken] at first
    rw [values, bytes, first, ih _ dropped, List.take_append_drop]

end Operand

/-- The bytes of all operands of an opcode together. -/
theorem Opcode.operandWidth_eq_widths (op : Opcode) :
    op.operandWidth = Operand.widths op.operands :=
  by cases op <;> rfl

/-- The capture that a pair of bytes stands for. -/
def Capture.ofPair (pair : UInt8 × UInt8) : Capture := ⟨pair.1 != 0, pair.2.toNat⟩

/-- The bytes of captures, in pairs. -/
def Capture.bytes (pairs : List (UInt8 × UInt8)) : List UInt8 :=
  pairs.flatMap fun pair => [pair.1, pair.2]

@[simp] theorem Capture.length_bytes (pairs : List (UInt8 × UInt8)) :
    (Capture.bytes pairs).length = 2 * pairs.length := by
  simp [Capture.bytes, List.length_flatMap, Nat.mul_comm]

/-! ## Reading what was written -/

namespace Reader

/-- A number is cut off exactly if the code ends before its last byte. -/
theorem bigEndian?_eq_none_iff (code : Array UInt8) (ip width : Nat) :
    bigEndian? code ip width = none ↔ 0 < width ∧ code.size < ip + width := by
  induction width with
  | zero => simp [bigEndian?]
  | succ width ih =>
    cases high : bigEndian? code ip width with
    | none =>
      have := ih.1 high
      simp only [bigEndian?, high, Option.bind_eq_bind, Option.bind_none, true_iff]
      omega
    | some n =>
      have present : ¬(0 < width ∧ code.size < ip + width) := fun cut => by
        rw [ih.2 cut] at high
        exact nomatch high
      have last : bigEndian? code ip (width + 1) = none ↔ code[ip + width]? = none := by
        cases low : code[ip + width]? <;> simp [bigEndian?, high, low]
      rw [last, Array.getElem?_eq_none_iff]
      omega

/-- A number is read back from the bytes it is written in. -/
theorem bigEndian?_of_toList {code : Array UInt8} {before after : List UInt8} {width value : Nat}
    (spelled : code.toList = before ++ (Chunk.bigEndian width value ++ after))
    (small : value < 256 ^ width) : bigEndian? code before.length width = some value := by
  induction width generalizing value after with
  | zero => simp_all [bigEndian?]
  | succ width ih =>
    simp only [Chunk.bigEndian, List.append_assoc] at spelled
    have high := ih spelled (by rw [Nat.pow_succ] at small; omega)
    have low : code[before.length + width]? = some (UInt8.ofNat value) := by
      rw [← Array.getElem?_toList, spelled, List.getElem?_append_right (by omega),
        List.getElem?_append_right (by simp)]
      simp
    have digits : value / 256 * 256 + value % 256 = value := by omega
    simp [bigEndian?, high, low, UInt8.toNat_ofNat', digits]

/-- Operands are read back from their bytes, and the pointer moves past them. -/
theorem operands_of_toList {code : Array UInt8} {before after : List UInt8}
    {operands : List Operand} {values : List Nat} (fit : Operand.Fit operands values)
    (spelled : code.toList = before ++ (Operand.bytes operands values ++ after)) :
    Reader.operands code operands before.length =
      (some values, before.length + Operand.widths operands) := by
  induction fit generalizing before with
  | nil => rfl
  | @cons operand value operands values small _ ih =>
    simp only [Operand.bytes, List.append_assoc] at spelled
    have first := bigEndian?_of_toList spelled small
    have others := @ih (before ++ Chunk.bigEndian operand.kind.width value)
      (by simpa only [List.append_assoc] using spelled)
    simp only [List.length_append, Chunk.length_bigEndian] at others
    simp [Reader.operands, first, others, Operand.widths, Nat.add_assoc]

/-- As many values are read as there are operands. -/
theorem length_operands {code : Array UInt8} {operands : List Operand} {ip : Nat}
    {values : List Nat} (read : (Reader.operands code operands ip).1 = some values) :
    values.length = operands.length := by
  induction operands generalizing ip values with
  | nil =>
    obtain rfl := Option.some.inj read
    rfl
  | cons operand rest ih =>
    simp only [Reader.operands] at read
    split at read
    · cases read
    · obtain ⟨others, found, rfl⟩ := Option.map_eq_some_iff.1 read
      rw [List.length_cons, List.length_cons, ih found]

/-- An instruction is read with all its operands. -/
theorem length_operands_of_instruction {code : Array UInt8} {ip next : Nat} {i : Instruction}
    (read : instruction code ip = (.ok i, next)) : i.operands.length = i.opcode.operands.length := by
  unfold instruction at read
  split at read
  · cases read
  · split at read
    · cases read
    · split at read
      next operands =>
        obtain ⟨same, -⟩ := Prod.mk.inj read
        obtain rfl := Except.ok.inj same
        exact length_operands (congrArg Prod.fst operands)
      · cases read

/-- As many captures are read as were asked for. -/
theorem length_captures {code : Array UInt8} {count ip : Nat} {found : List Capture}
    (read : (captures code count ip).1 = some found) : found.length = count := by
  induction count generalizing ip found with
  | zero =>
    obtain rfl := Option.some.inj read
    rfl
  | succ count ih =>
    simp only [captures] at read
    split at read
    · obtain ⟨rest, others, rfl⟩ := Option.map_eq_some_iff.1 read
      rw [List.length_cons, ih others]
    · cases read
    · cases read

/-- Captures are read back from their bytes, and the pointer moves past them. -/
theorem captures_of_toList {code : Array UInt8} {before after : List UInt8}
    {pairs : List (UInt8 × UInt8)}
    (spelled : code.toList = before ++ (Capture.bytes pairs ++ after)) :
    Reader.captures code pairs.length before.length =
      (some (pairs.map Capture.ofPair), before.length + 2 * pairs.length) := by
  induction pairs generalizing before with
  | nil => rfl
  | cons pair pairs ih =>
    simp only [Capture.bytes, List.flatMap_cons, List.cons_append, List.nil_append] at spelled
    have kind : code[before.length]? = some pair.1 := by
      rw [← Array.getElem?_toList, spelled]; simp
    have index : code[before.length + 1]? = some pair.2 := by
      rw [← Array.getElem?_toList, spelled]; simp
    have others := @ih (before ++ [pair.1, pair.2]) (by simpa [Capture.bytes] using spelled)
    simp only [List.length_append, List.length_cons, List.length_nil] at others
    simp only [List.length_cons, Reader.captures, kind, index, others, Option.map_some,
      List.map_cons, Capture.ofPair]
    congr 1
    omega

end Reader

end ScriptMachine
