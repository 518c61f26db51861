/-
# Listings

A listing shows one instruction on a line: its offset, its source line, its
name and its operands. A source line that repeats is shown as a bar. Constants
appear with their text, jumps with their target, and the captures of a closure
on lines of their own. Bytes that are no instruction, and instructions that
are cut off, are shown as such, so every chunk has a listing.
-/

import ScriptMachine.Bytecode.Chunk
import ScriptMachine.Bytecode.Reader
import ScriptMachine.Text.Layout

namespace ScriptMachine

/-- What a listing has to know about constants. -/
structure ConstantFormat (V : Type) where
  /-- The text of a constant. -/
  text : V → String
  /-- How many captures follow an instruction that makes a closure of the constant. -/
  captureCount : V → Nat

namespace Listing

open Layout

variable {V : Type}

/-- The column of the source line. -/
def lineColumn (c : Chunk V) (offset : Nat) : String :=
  match c.line? offset with
  | none => "   ? "
  | some line =>
    if 0 < offset && c.line? (offset - 1) == some line then "   | "
    else alignRight 4 (toString line) ++ " "

/-- The target of a jump backward. Before the start of the code it wraps in 64 bits. -/
def backwardTarget (ip distance : Nat) : Nat :=
  if distance ≤ ip then ip - distance else Nat.pow 2 64 + ip - distance

/-- The captures from the pointer on, and the offset after them. -/
def captures (code : Array UInt8) : (count : Nat) → Nat → String × Nat
  | 0, ip => ("", ip)
  | count + 1, ip =>
    match code[ip]?, code[ip + 1]? with
    | some kind, some index =>
      let shown := if kind != 0 then "local" else "upvalue"
      let (rest, next) := captures code count (ip + 2)
      (s!"\n{fourDigits ip}      |                     {shown} {index}" ++ rest, next)
    | _, _ => ("\n<truncated>", code.size)

/-- The text of one operand that is not a list of captures; `offset` is that of its instruction and
`next` the one after the operand. -/
def operand (format : ConstantFormat V) (c : Chunk V) (offset next : Nat) (kind : OperandKind)
    (value : Nat) : String :=
  match kind with
  | .constant | .longConstant =>
    match c.constant? value with
    | some constant => s!" {alignRight 4 (toString value)} '{format.text constant}'"
    | none => s!" {alignRight 4 (toString value)} <bad constant>"
  | .slot | .count => s!" {alignRight 4 (toString value)}"
  | .forward => s!" {alignRight 4 (toString offset)} -> {next + value}"
  | .backward => s!" {alignRight 4 (toString offset)} -> {backwardTarget next value}"
  | .captures => ""

/-- The captures that follow if the operand is a constant that a closure is made of. -/
def captureCount (format : ConstantFormat V) (c : Chunk V) (kind : OperandKind) (value : Nat) :
    Nat :=
  match kind with
  | .constant | .longConstant => ((c.constant? value).map format.captureCount).getD 0
  | _ => 0

/-- The operands from the pointer on, and the offset after them. Captures come last, and `count`
tells how many there are. -/
def operands (format : ConstantFormat V) (c : Chunk V) (offset : Nat) :
    List Operand → (count ip : Nat) → String × Nat
  | [], _, ip => ("", ip)
  | ⟨_, .captures⟩ :: _, count, ip => captures c.code count ip
  | ⟨_, kind⟩ :: rest, _, ip =>
    match Reader.bigEndian? c.code ip kind.width with
    | none => (" <truncated>", c.size)
    | some value =>
      let after := ip + kind.width
      let (shown, next) := operands format c offset rest (captureCount format c kind value) after
      (operand format c offset after kind value ++ shown, next)

/-- The instruction at an offset, and the offset of the next one. -/
def instruction (format : ConstantFormat V) (c : Chunk V) (offset : Nat) : String × Nat :=
  let columns := s!"{fourDigits offset} {lineColumn c offset}"
  match c.code[offset]? with
  | none => (columns, offset + 1)
  | some byte =>
    match Opcode.ofByte? byte with
    | none => (s!"{columns}Unknown opcode {byte}", offset + 1)
    | some op =>
      -- A name that nothing follows is not filled up, so no line ends in blanks.
      if op.operands.isEmpty then (columns ++ op.name, offset + 1)
      else
        let (shown, next) := operands format c offset op.operands 0 (offset + 1)
        (columns ++ alignLeft 16 op.name ++ shown, next)

/-- The instructions from an offset on, at most as many as `bound`. -/
def instructions (format : ConstantFormat V) (c : Chunk V) : (bound offset : Nat) → List String
  | 0, _ => []
  | bound + 1, offset =>
    if offset < c.size then
      let (shown, next) := instruction format c offset
      shown :: instructions format c bound next
    else []

/-- All instructions of a chunk under a heading. Each takes at least one byte, so the size of the
code bounds their number. -/
def chunk (format : ConstantFormat V) (c : Chunk V) (name : String) : String :=
  String.join ((s!"== {name} ==" :: instructions format c c.size 0).map (· ++ "\n"))

end Listing

end ScriptMachine
