/-
# One step of the machine

A step reads the instruction at the instruction pointer of the innermost
frame and carries it out. If execution is traced, the stack and the listing of
the instruction are recorded first.
-/

import ScriptMachine.Machine.Calls

namespace ScriptMachine

namespace Exec

/-! ## Operators -/

/-- Replace two numbers on top of the stack by the result of an operation. -/
def binary (op : Number → Number → Value) : Exec Unit := do
  match ← peek 1, ← peek 0 with
  | .number a, .number b =>
    discard pop
    discard pop
    push (op a b)
  | _, _ => fail .operandsMustBeNumbers

/-- What a value contributes to a text that it is joined to. -/
def joinedText? (heap : Heap) : Value → Option String
  | .number n => some n.precise
  | .object h => heap.text? h
  | _ => none

/-- Replace two values on top of the stack by their joined texts, if one of them at least is a
string. Both operands stay on the stack until the string exists. -/
def join (a b : Value) : Exec Unit := do
  let heap := (← get).heap
  if !heap.isString a && !heap.isString b then fail .operandsMustBeNumbersOrStrings
  match joinedText? heap a, joinedText? heap b with
  | some left, some right =>
    let joined ← intern (left ++ right)
    discard pop
    discard pop
    push (.object joined)
  | _, _ => fail .operandsMustBeNumbersOrStrings

/-- Add two numbers, or join two texts. -/
def add : Exec Unit := do
  match ← peek 1, ← peek 0 with
  | .number a, .number b =>
    discard pop
    discard pop
    push (.number (a + b))
  | a, b => join a b

/-- Negate the number on top of the stack. -/
def negate : Exec Unit := do
  match ← peek 0 with
  | .number n =>
    discard pop
    push (.number (-n))
  | _ => fail .operandMustBeNumber

/-- Pop a value and write its text on a line. -/
def print : Exec Unit := do
  let value ← pop
  let m ← get
  let (fits, sink) := m.sink.write (m.heap.display value ++ "\n")
  set { m with sink }
  if !fits then fail (.output Sink.fullMessage)

/-! ## Globals -/

/-- Push the value of a global. -/
def getGlobal (name : Key) : Exec Unit := do
  match (← get).globals.get? name with
  | some value => push value
  | none => fail (.undefinedVariable (← textOf name))

/-- Set a global, and tell whether it is new. -/
def storeGlobal (name : Key) (value : Value) : Exec Bool :=
  modifyGet fun m =>
    let (new, globals) := m.globals.insert name value
    (new, { m with globals })

/-- Define a global as the popped value. -/
def defineGlobal (name : Key) : Exec Unit := do
  let value ← peek 0
  discard (storeGlobal name value)
  discard pop

/-- Assign the top value to a global. Assignment never defines: a global that turns out to be new is
removed again. -/
def setGlobal (name : Key) : Exec Unit := do
  let value ← peek 0
  if ← storeGlobal name value then
    modify fun m => { m with globals := (m.globals.erase name).2 }
    fail (.undefinedVariable (← textOf name))

/-! ## Jumps -/

/-- Move the instruction pointer forward. -/
def jump (distance : Nat) : Exec Unit := do setIp ((← frame).ip + distance)

/-- Move the instruction pointer backward. -/
def jumpBack (distance : Nat) : Exec Unit := do
  let ip := (← frame).ip
  if ip < distance then malformed .loopBeforeStart
  setIp (ip - distance)

/-! ## Instructions -/

/-- Carry out an instruction with its first and second operand. -/
def perform (op : Opcode) (a b : Nat) : Exec Unit := do
  match op with
  | .constant | .longConstant => push (← constant a)
  | .pushNil => push .nil
  | .pushTrue => push (.bool true)
  | .pushFalse => push (.bool false)
  | .pop => discard pop
  | .getLocal => push (← getLocal a)
  | .setLocal => setLocal a (← peek 0)
  | .getGlobal => getGlobal (← name a)
  | .defineGlobal => defineGlobal (← name a)
  | .setGlobal => setGlobal (← name a)
  | .getUpvalue => push (← getUpvalue a)
  | .setUpvalue => setUpvalue a
  | .getProperty => getProperty (← name a)
  | .setProperty => setProperty (← name a)
  | .getSuper =>
    let key ← name a
    bindMethod (← popClass) key
  | .equal =>
    let right ← pop
    let left ← pop
    push (.bool (left.equal right))
  | .greater => binary fun x y => .bool (y.below x)
  | .less => binary fun x y => .bool (x.below y)
  | .add => add
  | .subtract => binary fun x y => .number (x - y)
  | .multiply => binary fun x y => .number (x * y)
  | .divide => binary fun x y => .number (x / y)
  | .not => push (.bool (← pop).isFalsey)
  | .negate => negate
  | .print => print
  | .jump => jump a
  | .jumpIfFalse => if (← peek 0).isFalsey then jump a
  | .loop => jumpBack a
  | .call => callValue (← peek a) a
  | .invoke => invoke (← name a) b
  | .superInvoke =>
    let key ← name a
    invokeFrom (← popClass) key b
  | .closure => makeClosure a
  | .closeUpvalue => closeTop
  | .newClass =>
    let key ← name a
    push (.object (← allocate (.cls key.handle .empty)))
  | .inherit => inherit
  | .method => defineMethod (← name a)
  | .ret => returnValue

/-- Record an event. -/
def record (event : ExecutionEvent) : Exec Unit :=
  modify fun m => { m with events := event :: m.events }

/-- Record the stack and the instruction that comes next, if there is one. -/
def traceInstruction : Exec Unit := do
  let ip := (← frame).ip
  let chunk := (← function).chunk
  let m ← get
  record (.stack (m.stack.toList.map m.heap.display))
  if ip < chunk.size then
    record (.instruction (Listing.instruction m.heap.constantFormat chunk ip).1)

/-- Read an instruction and carry it out. -/
def step : Exec Unit := do
  if (← get).config.diagnostics.traceExecution then traceInstruction
  let instruction ← fetch
  perform instruction.opcode (instruction.operands.getD 0 0) (instruction.operands.getD 1 0)

end Exec

end ScriptMachine
