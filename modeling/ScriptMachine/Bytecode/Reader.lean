/-
# Reading instructions

Instructions are read from bytes at an instruction pointer. Every reader also
says where the pointer stands afterwards: it has moved past all bytes that
were read, even when a later byte is missing, because the line of an error is
the line of the last byte that was read.
-/

import ScriptMachine.Bytecode.Opcode

namespace ScriptMachine

/-- An opcode with the values of its operands. -/
structure Instruction where
  opcode : Opcode
  operands : List Nat
  deriving DecidableEq, Repr

/-- Where a closure finds a variable that it captures. -/
structure Capture where
  /-- The variable is a slot of the frame that makes the closure, not a captured variable of it. -/
  isLocal : Bool
  index : Nat
  deriving DecidableEq, Repr

/-- Why no instruction can be read. -/
inductive FetchError
  | pastEnd
  | unknownOpcode (byte : UInt8)
  | truncatedOperand (op : Opcode)
  deriving DecidableEq, Repr

namespace Reader

/-- The number written in the given bytes from the pointer on, the most significant one first. -/
def bigEndian? (code : Array UInt8) (ip : Nat) : (width : Nat) → Option Nat
  | 0 => some 0
  | width + 1 => do
    let high ← bigEndian? code ip width
    let low ← code[ip + width]?
    return high * 256 + low.toNat

/-- The values of the operands, if none of them is cut off. -/
def operands (code : Array UInt8) : List Operand → Nat → Option (List Nat) × Nat
  | [], ip => (some [], ip)
  | operand :: rest, ip =>
    match bigEndian? code ip operand.kind.width with
    | none => (none, ip)
    | some value =>
      let (values, next) := operands code rest (ip + operand.kind.width)
      (values.map (value :: ·), next)

/-- The instruction at the pointer. The captures of a closure are left to `captures`. -/
def instruction (code : Array UInt8) (ip : Nat) : Except FetchError Instruction × Nat :=
  match code[ip]? with
  | none => (.error .pastEnd, ip)
  | some byte =>
    match Opcode.ofByte? byte with
    | none => (.error (.unknownOpcode byte), ip + 1)
    | some op =>
      match operands code op.operands (ip + 1) with
      | (some values, next) => (.ok ⟨op, values⟩, next)
      | (none, next) => (.error (.truncatedOperand op), next)

/-- The given number of captures, if none of them is cut off. -/
def captures (code : Array UInt8) : (count : Nat) → Nat → Option (List Capture) × Nat
  | 0, ip => (some [], ip)
  | count + 1, ip =>
    match code[ip]?, code[ip + 1]? with
    | some kind, some index =>
      let (rest, next) := captures code count (ip + 2)
      (rest.map (⟨kind != 0, index.toNat⟩ :: ·), next)
    | some _, none => (none, ip + 1)
    | none, _ => (none, ip)

end Reader

end ScriptMachine
