/-
# Instructions as actions

An instruction acts on the machine and may stop it: the script has returned,
or has made an error, or the machine has broken a promise to itself. What an
instruction did before it stops stays done, so an error leaves its traces in
the machine, above all the instruction pointer of the frame.

An instruction may allocate more than one object. To look at the machine in
between, an action is told a handle, and pauses when the heap hands it out.
Programs run without such a handle and never pause.

This file holds the actions that the instructions are made of.
-/

import ScriptMachine.Machine.Basic

namespace ScriptMachine

/-- Why the machine stops. -/
inductive Stop
  /-- The script has returned. -/
  | finished (result : Value)
  | failed (kind : ErrorKind)
  | broken (fault : Fault)
  /-- The heap has handed out the handle to pause at. -/
  | paused
  deriving DecidableEq, Repr

/-- An action on the machine that may stop it. It is told a handle to pause at, or none. -/
abbrev Exec := ReaderT (Option Handle) (EStateM Stop Machine)

namespace Exec

variable {α : Type}

/-- Stop with an error. -/
def fail (kind : ErrorKind) : Exec α := throw (.failed kind)

/-- Stop because the byte code makes no sense. -/
def malformed (flaw : Malformed) : Exec α := fail (.malformed flaw)

/-- The value of an option, or an error. -/
def orFail (kind : ErrorKind) : Option α → Exec α
  | some a => pure a
  | none => fail kind

/-- The value of an option, or a flaw of the byte code. -/
def orMalformed (flaw : Malformed) : Option α → Exec α
  | some a => pure a
  | none => malformed flaw

/-- The value of an option that the machine has promised to itself. -/
def orBroken (fault : Fault) : Option α → Exec α
  | some a => pure a
  | none => throw (.broken fault)

/-! ## The heap -/

/-- Pause if this is the handle to pause at. -/
def pauseAt (h : Handle) : Exec Unit := do
  if (← read) = some h then throw .paused

/-- Put an object into the heap. -/
def allocate (object : Object) : Exec Handle := do
  let h ← modifyGet (·.allocate object [])
  pauseAt h
  return h

/-- The string with a text. -/
def intern (text : String) : Exec Handle := do
  let h ← modifyGet (·.intern text [])
  pauseAt h
  return h

/-- Change the heap. -/
def modifyHeap (f : Heap → Heap) : Exec Unit := modify fun m => { m with heap := f m.heap }

/-! ## The stack -/

/-- Push a value, unless the stack is full. -/
def push (value : Value) : Exec Unit := do
  let m ← get
  if m.config.stackLimit ≤ m.stack.size then fail .operandStackOverflow
  set { m with stack := m.stack.push value }

/-- The value that lies the given number of values below the top. -/
def peek (distance : Nat) : Exec Value := do
  let stack := (← get).stack
  if distance < stack.size then orMalformed .stackUnderflow stack[stack.size - 1 - distance]?
  else malformed .stackUnderflow

/-- Take the top value off the stack. -/
def pop : Exec Value := do
  let value ← peek 0
  modify fun m => { m with stack := m.stack.pop }
  return value

/-- Overwrite a slot of the stack that is known to exist. -/
def setSlot (slot : Nat) (value : Value) : Exec Unit := do
  let m ← get
  if slot < m.stack.size then set { m with stack := m.stack.setIfInBounds slot value }
  else throw (.broken .lostSlot)

/-- The values above a slot of the stack that is known to exist. -/
def valuesAbove (slot : Nat) : Exec (Array Value) := do
  let stack := (← get).stack
  if slot < stack.size then return stack.extract (slot + 1) stack.size
  else throw (.broken .lostSlot)

/-- Drop all values from a slot on. -/
def truncate (slot : Nat) : Exec Unit :=
  modify fun m => { m with stack := m.stack.take slot }

/-- The slot below the given number of arguments. -/
def calleeSlot (count : Nat) : Exec Nat := do
  let size := (← get).stack.size
  if count < size then return size - 1 - count else malformed .missingArguments

/-! ## The frame -/

/-- The innermost frame. -/
def frame : Exec Frame := do orBroken .noFrame (← get).frames.head?

/-- Move the instruction pointer of the innermost frame. -/
def setIp (ip : Nat) : Exec Unit :=
  modify fun m => { m with frames := m.frames.modifyHead ({ · with ip }) }

/-- The function that the innermost frame runs. -/
def function : Exec Function := do
  let h := (← frame).function
  orBroken .lostFunction ((← get).heap.function? h)

/-- Read the instruction at the instruction pointer. -/
def fetch : Exec Instruction := do
  let code := (← function).chunk.code
  let (result, ip) := Reader.instruction code (← frame).ip
  setIp ip
  match result with
  | .ok instruction => return instruction
  | .error e => malformed (.fetch e)

/-- Read captures at the instruction pointer. -/
def fetchCaptures (count : Nat) : Exec (List Capture) := do
  let code := (← function).chunk.code
  let (result, ip) := Reader.captures code count (← frame).ip
  setIp ip
  orMalformed .truncatedCaptures result

/-! ## What operands stand for -/

/-- A constant of the function. -/
def constant (index : Nat) : Exec Value := do
  orMalformed (.constantOutOfRange index) ((← function).chunk.constant? index)

/-- A constant that is a string, as a key. -/
def name (index : Nat) : Exec Key := do
  let value ← constant index
  orMalformed (.constantNotString index) (value.handle?.bind (← get).heap.key?)

/-- The text of a key, for errors. -/
def textOf (key : Key) : Exec String := do return ((← get).heap.text? key.handle).getD ""

/-- The value of a slot of the frame. -/
def getLocal (slot : Nat) : Exec Value := do
  let index := (← frame).base + slot
  orMalformed (.localOutOfRange slot) (← get).stack[index]?

/-- Set a slot of the frame. -/
def setLocal (slot : Nat) (value : Value) : Exec Unit := do
  let index := (← frame).base + slot
  if index < (← get).stack.size then setSlot index value else malformed (.localOutOfRange slot)

/-- A captured variable of the closure that runs. -/
def upvalue (index : Nat) : Exec Handle := do
  let closure := (← frame).closure
  let captured := ((← get).heap.captured? closure).bind (·[index]?)
  orMalformed (.upvalueOutOfRange index) captured

/-- The instance that a value is: its handle, class and fields. -/
def instance? (value : Value) : Exec (Option (Handle × Handle × Table)) := do
  let heap := (← get).heap
  return do
    let h ← value.handle?
    let (c, fields) ← heap.instance? h
    return (h, c, fields)

/-- The class that a value is: its handle and methods. -/
def class? (value : Value) : Exec (Option (Handle × Table)) := do
  let heap := (← get).heap
  return do
    let h ← value.handle?
    return (h, ← heap.methods? h)

end Exec

end ScriptMachine
