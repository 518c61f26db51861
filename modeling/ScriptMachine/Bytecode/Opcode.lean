/-
# The instruction set

Each instruction is one opcode byte followed by its operands. The table below
gives the name of each opcode, and the name and the kind of each of its
operands; readers, writers and listings all go by it. The stack effects are
those of the machine.
-/

namespace ScriptMachine

/-- How an operand is written after the opcode byte. -/
inductive OperandKind
  /-- An index into the constant pool, in one byte. -/
  | constant
  /-- An index into the constant pool, in three bytes. -/
  | longConstant
  /-- A stack slot of the frame or a captured variable of the closure, in one byte. -/
  | slot
  /-- A number of arguments, in one byte. -/
  | count
  /-- A distance forward, in two bytes. -/
  | forward
  /-- A distance backward, in two bytes. -/
  | backward
  /-- Pairs of bytes, one for each variable that the function captures. -/
  | captures
  deriving DecidableEq, Repr

namespace OperandKind

/-- The bytes of an operand, the most significant one first. How many pairs of captures follow is
known from the function, so they count as none here. -/
def width : OperandKind → Nat
  | constant | slot | count => 1
  | forward | backward => 2
  | longConstant => 3
  | captures => 0

/-- The name of the kind in tables of the instruction set. -/
def name : OperandKind → String
  | constant => "Const"
  | longConstant => "ConstLong"
  | slot => "Slot"
  | count => "Count"
  | forward => "Jump"
  | backward => "Loop"
  | captures => "Captures"

end OperandKind

/-- One operand of an instruction. -/
structure Operand where
  name : String
  kind : OperandKind
  deriving DecidableEq, Repr

/-- The instructions, in the order of their bytes. -/
inductive Opcode
  /-- Push the constant with a short index. -/
  | constant
  /-- Push the constant with a long index. -/
  | longConstant
  | pushNil
  | pushTrue
  | pushFalse
  | pop
  /-- Push the value of a slot of the frame. -/
  | getLocal
  /-- Store the top value in a slot of the frame; it stays on the stack. -/
  | setLocal
  | getGlobal
  /-- Define a global as the popped value. -/
  | defineGlobal
  /-- Assign a global that exists; the value stays on the stack. -/
  | setGlobal
  /-- Push the value of a captured variable of the closure. -/
  | getUpvalue
  /-- Store the top value in a captured variable; it stays on the stack. -/
  | setUpvalue
  /-- Replace an instance by its field, or by its method bound to it. -/
  | getProperty
  /-- Pop a value and an instance, set the field, and push the value. -/
  | setProperty
  /-- Pop a class and replace the receiver below it by the method of that class bound to it. -/
  | getSuper
  | equal
  | greater
  | less
  /-- Add numbers, or join texts; a number next to a string is turned into text. -/
  | add
  | subtract
  | multiply
  | divide
  | not
  | negate
  /-- Pop a value and write its text on a line. -/
  | print
  | jump
  /-- Jump if the top value is nil or false; it stays on the stack. -/
  | jumpIfFalse
  /-- Jump backward. -/
  | loop
  /-- Call the value below the arguments. -/
  | call
  /-- Call the field or the method of the receiver below the arguments. -/
  | invoke
  /-- Pop a class and call its method on the receiver below the arguments. -/
  | superInvoke
  /-- Push a closure of a function constant over the captured variables that follow. -/
  | closure
  /-- Close the captured variable of the top slot, then pop it. -/
  | closeUpvalue
  /-- Push a new class. -/
  | newClass
  /-- Copy all methods of the superclass into the class on top, and pop the class. -/
  | inherit
  /-- Pop a method and add it to the class below. -/
  | method
  /-- Return the popped value from the function. -/
  | ret
  deriving DecidableEq, Repr

namespace Opcode

/-- All opcodes in the order of their bytes. -/
def all : Array Opcode :=
  #[constant, longConstant, pushNil, pushTrue, pushFalse, pop, getLocal, setLocal, getGlobal,
    defineGlobal, setGlobal, getUpvalue, setUpvalue, getProperty, setProperty, getSuper, equal,
    greater, less, add, subtract, multiply, divide, not, negate, print, jump, jumpIfFalse, loop,
    call, invoke, superInvoke, closure, closeUpvalue, newClass, inherit, method, ret]

/-- The byte of an opcode: its place in the order. -/
def byte (op : Opcode) : UInt8 := UInt8.ofNat op.ctorIdx

/-- The opcode of a byte, if there is one. -/
def ofByte? (b : UInt8) : Option Opcode := all[b.toNat]?

/-- The name of an opcode in listings. -/
def name : Opcode → String
  | constant => "Constant"
  | longConstant => "ConstantLong"
  | pushNil => "Nil"
  | pushTrue => "True"
  | pushFalse => "False"
  | pop => "Pop"
  | getLocal => "GetLocal"
  | setLocal => "SetLocal"
  | getGlobal => "GetGlobal"
  | defineGlobal => "DefineGlobal"
  | setGlobal => "SetGlobal"
  | getUpvalue => "GetUpvalue"
  | setUpvalue => "SetUpvalue"
  | getProperty => "GetProperty"
  | setProperty => "SetProperty"
  | getSuper => "GetSuper"
  | equal => "Equal"
  | greater => "Greater"
  | less => "Less"
  | add => "Add"
  | subtract => "Subtract"
  | multiply => "Multiply"
  | divide => "Divide"
  | not => "Not"
  | negate => "Negate"
  | print => "Print"
  | jump => "Jump"
  | jumpIfFalse => "JumpIfFalse"
  | loop => "Loop"
  | call => "Call"
  | invoke => "Invoke"
  | superInvoke => "SuperInvoke"
  | closure => "Closure"
  | closeUpvalue => "CloseUpvalue"
  | newClass => "Class"
  | inherit => "Inherit"
  | method => "Method"
  | ret => "Return"

/-- The opcode with the given name in listings. -/
def ofName? (text : String) : Option Opcode := all.find? (·.name == text)

/-- The operands of an opcode, in the order in which they are written. -/
def operands : Opcode → List Operand
  | constant => [⟨"idx", .constant⟩]
  | longConstant => [⟨"idx", .longConstant⟩]
  | getLocal | setLocal | getUpvalue | setUpvalue => [⟨"slot", .slot⟩]
  | getGlobal | defineGlobal | setGlobal | getProperty | setProperty | getSuper | newClass
  | method => [⟨"name", .constant⟩]
  | jump | jumpIfFalse => [⟨"offset", .forward⟩]
  | loop => [⟨"offset", .backward⟩]
  | call => [⟨"argc", .count⟩]
  | invoke | superInvoke => [⟨"name", .constant⟩, ⟨"argc", .count⟩]
  | closure => [⟨"function", .constant⟩, ⟨"captures", .captures⟩]
  | pushNil | pushTrue | pushFalse | pop | equal | greater | less | add | subtract | multiply
  | divide | not | negate | print | closeUpvalue | inherit | ret => []

/-- The bytes of all operands together, captures not counted. -/
def operandWidth (op : Opcode) : Nat := op.operands.foldl (· + ·.kind.width) 0

/-- Reading the byte of an opcode gives the opcode. -/
@[simp] theorem ofByte?_byte (op : Opcode) : ofByte? op.byte = some op := by cases op <;> rfl

end Opcode

end ScriptMachine
