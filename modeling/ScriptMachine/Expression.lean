/-
# Arithmetic expressions

Expressions over number literals, with their value and their code. The code
computes the operands first, the left one before the right one, and then the
operator, so the value of an expression is what its code leaves on the stack.
-/

import ScriptMachine.Bytecode.Chunk
import ScriptMachine.Value

namespace ScriptMachine

/-- The operators with two operands. -/
inductive Operator
  | add
  | subtract
  | multiply
  | divide
  deriving DecidableEq, Repr

namespace Operator

/-- The result of an operator. -/
def apply : Operator → Number → Number → Number
  | add, a, b => a + b
  | subtract, a, b => a - b
  | multiply, a, b => a * b
  | divide, a, b => a / b

/-- The instruction of an operator. -/
def opcode : Operator → Opcode
  | add => .add
  | subtract => .subtract
  | multiply => .multiply
  | divide => .divide

end Operator

/-- An arithmetic expression. -/
inductive Expression
  | literal (n : Number)
  | negate (e : Expression)
  | binary (op : Operator) (left right : Expression)
  deriving DecidableEq, Repr

namespace Expression

/-- The value of an expression. -/
def eval : Expression → Number
  | literal n => n
  | negate e => -e.eval
  | binary op left right => op.apply left.eval right.eval

/-- Append the code of an expression to a chunk. -/
def write (c : Chunk Value) (line : Nat) : Expression → Except ChunkError (Chunk Value)
  | literal n => (c.loadConstant (.number n) line).map (·.2)
  | negate e => do return (← write c line e).emit .negate [] line
  | binary op left right => do
    let c ← write c line left
    let c ← write c line right
    return c.emit op.opcode [] line

/-- The script that returns the value of an expression. -/
def assemble (e : Expression) (line : Nat) : Except ChunkError (Chunk Value) := do
  return (← write .empty line e).emit .ret [] line

/-- The values that the code of an expression needs on the stack at once. -/
def stackNeed : Expression → Nat
  | literal _ => 1
  | negate e => e.stackNeed
  | binary _ left right => max left.stackNeed (right.stackNeed + 1)

/-- The number of literals. -/
def literalCount : Expression → Nat
  | literal _ => 1
  | negate e => e.literalCount
  | binary _ left right => left.literalCount + right.literalCount

end Expression

end ScriptMachine
