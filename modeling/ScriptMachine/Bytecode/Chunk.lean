/-
# Chunks of byte code

A chunk is code under construction or in use: its bytes, the line of each
byte, and a pool of constants. The pool always starts with a default value at
index zero. Jumps forward are written with a placeholder, which is patched
when the target is reached.
-/

import ScriptMachine.Bytecode.Opcode

namespace ScriptMachine

/-- Byte code with the line of each byte and a pool of constants. -/
structure Chunk (V : Type) where
  code : Array UInt8
  lines : Array Nat
  constants : Array V

/-- Why a chunk refuses to grow. -/
inductive ChunkError
  | tooManyConstants
  /-- A jump forward over this many bytes. -/
  | jumpTooLarge (bytes : Nat)
  /-- A jump backward over this many bytes. -/
  | loopTooLarge (bytes : Nat)
  deriving DecidableEq, Repr

/-- The wording of a chunk's error. -/
def ChunkError.message : ChunkError → String
  | tooManyConstants => "Too many constants in one chunk."
  | jumpTooLarge n => s!"Too much code to jump over ({n} bytes)."
  | loopTooLarge n => s!"Loop body too large ({n} bytes)."

namespace Chunk

variable {V : Type}

/-- Constants with a smaller index are loaded by the short instruction. -/
def shortIndexLimit : Nat := 255

/-- No constant has this index or a greater one. -/
def indexLimit : Nat := Nat.pow 2 24

/-- The greatest distance of a jump. -/
def jumpLimit : Nat := 65535

/-- The chunk without code, whose pool holds the default value alone. -/
def empty [Inhabited V] : Chunk V := ⟨#[], #[], #[default]⟩

instance [Inhabited V] : Inhabited (Chunk V) := ⟨empty⟩

/-- The number of bytes of code. -/
def size (c : Chunk V) : Nat := c.code.size

/-- The line of the byte at an offset. -/
def line? (c : Chunk V) (offset : Nat) : Option Nat := c.lines[offset]?

/-- The constant at an index. -/
def constant? (c : Chunk V) (index : Nat) : Option V := c.constants[index]?

/-- Append one byte. -/
def write (c : Chunk V) (byte : UInt8) (line : Nat) : Chunk V :=
  { c with code := c.code.push byte, lines := c.lines.push line }

/-- Append bytes that share a line. -/
def writeAll (c : Chunk V) (bytes : List UInt8) (line : Nat) : Chunk V :=
  bytes.foldl (·.write · line) c

/-- Append an instruction and its operand bytes. -/
def emit (c : Chunk V) (op : Opcode) (operands : List UInt8) (line : Nat) : Chunk V :=
  (c.write op.byte line).writeAll operands line

/-- Append a constant to the pool, and give its index. -/
def addConstant (c : Chunk V) (value : V) : Nat × Chunk V :=
  (c.constants.size, { c with constants := c.constants.push value })

/-- The last `width` bytes of a natural number, the most significant one first. -/
def bigEndian : (width : Nat) → Nat → List UInt8
  | 0, _ => []
  | width + 1, n => bigEndian width (n / 256) ++ [UInt8.ofNat n]

/-- Append a jump whose distance is not known yet, and give the offset of the two bytes kept for
it. -/
def emitJump (c : Chunk V) (op : Opcode) (line : Nat) : Nat × Chunk V :=
  let written := c.emit op [0xff, 0xff] line
  (written.size - 2, written)

/-! ## Writes that can be refused -/

/-- A write that can be refused. It says what the chunk is afterwards, also when it is refused. -/
abbrev Writer (V : Type) := EStateM ChunkError (Chunk V)

namespace Writer

/-- What a write gives and the chunk after it, or why it is refused. -/
def outcome {α : Type} (w : Writer V α) (c : Chunk V) : Except ChunkError (α × Chunk V) :=
  match w.run c with
  | .ok result after => .ok (result, after)
  | .error e _ => .error e

/-- Append the instruction that loads the constant at an index, in its short form if it has one. -/
def loadIndex (index line : Nat) : Writer V Unit := do
  if index < shortIndexLimit then
    modify (·.emit .constant (bigEndian 1 index) line)
  else if index < indexLimit then
    modify (·.emit .longConstant (bigEndian 3 index) line)
  else
    throw .tooManyConstants

/-- Append a constant to the pool and the instruction that loads it, and give its index. -/
def loadConstant (value : V) (line : Nat) : Writer V Nat := do
  if indexLimit ≤ (← get).constants.size then
    throw .tooManyConstants
  let index ← modifyGet (·.addConstant value)
  loadIndex index line
  return index

/-- Let the jump whose distance is kept at an offset lead to the present end of the code. Both bytes
of the distance have to be there already. For an offset beyond them the difference is cut off at
zero, where on machine integers it would overflow. -/
def patchJump (offset : Nat) : Writer V Unit := do
  let distance := (← get).size - offset - 2
  if jumpLimit < distance then
    throw (.jumpTooLarge distance)
  modify fun c =>
    { c with
      code := (c.code.setIfInBounds offset (UInt8.ofNat (distance / 256))).setIfInBounds
        (offset + 1) (UInt8.ofNat distance) }

/-- Append a jump back to an offset. The distance counts the three bytes of the jump itself. The
offset has to be one within the code or its end. Far beyond, the difference is cut off at zero,
where on machine integers it would overflow. -/
def emitLoop (start line : Nat) : Writer V Unit := do
  let distance := (← get).size + 3 - start
  if jumpLimit < distance then
    throw (.loopTooLarge distance)
  modify (·.emit .loop (bigEndian 2 distance) line)

end Writer

@[inherit_doc Writer.loadIndex]
def loadIndex (c : Chunk V) (index line : Nat) : Except ChunkError (Chunk V) :=
  ((Writer.loadIndex index line).outcome c).map (·.2)

@[inherit_doc Writer.loadConstant]
def loadConstant (c : Chunk V) (value : V) (line : Nat) : Except ChunkError (Nat × Chunk V) :=
  (Writer.loadConstant value line).outcome c

@[inherit_doc Writer.patchJump]
def patchJump (c : Chunk V) (offset : Nat) : Except ChunkError (Chunk V) :=
  ((Writer.patchJump offset).outcome c).map (·.2)

@[inherit_doc Writer.emitLoop]
def emitLoop (c : Chunk V) (start line : Nat) : Except ChunkError (Chunk V) :=
  ((Writer.emitLoop start line).outcome c).map (·.2)

/-! ## What writing adds -/

/-- A number is written in as many bytes as are asked for. -/
@[simp] theorem length_bigEndian (width n : Nat) : (bigEndian width n).length = width := by
  induction width generalizing n with
  | zero => rfl
  | succ width ih => simp [bigEndian, ih]

/-- Bytes are written at the end of the code. -/
theorem toList_code_writeAll (c : Chunk V) (bytes : List UInt8) (line : Nat) :
    (c.writeAll bytes line).code.toList = c.code.toList ++ bytes := by
  induction bytes generalizing c with
  | nil => simp [writeAll]
  | cons b rest ih => simpa [writeAll, write] using ih (c.write b line)

theorem toList_code_emit (c : Chunk V) (op : Opcode) (operands : List UInt8) (line : Nat) :
    (c.emit op operands line).code.toList = c.code.toList ++ op.byte :: operands := by
  simp [emit, toList_code_writeAll, write]

/-- Every byte that is written carries the line it is written with. -/
theorem toList_lines_writeAll (c : Chunk V) (bytes : List UInt8) (line : Nat) :
    (c.writeAll bytes line).lines.toList = c.lines.toList ++ List.replicate bytes.length line := by
  induction bytes generalizing c with
  | nil => simp [writeAll]
  | cons b rest ih => simpa [writeAll, write, List.replicate_succ] using ih (c.write b line)

@[simp] theorem constants_writeAll (c : Chunk V) (bytes : List UInt8) (line : Nat) :
    (c.writeAll bytes line).constants = c.constants := by
  induction bytes generalizing c with
  | nil => rfl
  | cons b rest ih => exact ih (c.write b line)

@[simp] theorem size_writeAll (c : Chunk V) (bytes : List UInt8) (line : Nat) :
    (c.writeAll bytes line).size = c.size + bytes.length := by
  simp only [size, ← Array.length_toList, toList_code_writeAll, List.length_append]

@[simp] theorem size_emit (c : Chunk V) (op : Opcode) (operands : List UInt8) (line : Nat) :
    (c.emit op operands line).size = c.size + 1 + operands.length := by
  simp [emit, write, size_writeAll]; simp [size]

end Chunk

end ScriptMachine
