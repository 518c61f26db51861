/-
# Calls, methods and closures

The instructions that call, look up methods and make closures. A value that
is called may be a closure, a method bound to its receiver, a class, whose
initializer then runs on a new instance, or a host function. Objects that an
instruction has just made, or is about to drop, stay on the stack while
another one is allocated.
-/

import ScriptMachine.Machine.Exec

namespace ScriptMachine

namespace Exec

/-! ## Calls -/

/-- Enter a closure whose arguments lie on top of the stack. -/
def call (closure : Handle) (count : Nat) : Exec Unit := do
  let h ← orFail .notCallable ((← get).heap.closureFunction? closure)
  let f ← orBroken .lostFunction ((← get).heap.function? h)
  if count ≠ f.arity then fail (.arityMismatch f.arity count)
  let m ← get
  if m.config.framesMax ≤ m.frames.length then fail .stackOverflow
  let base ← calleeSlot count
  modify fun m => { m with frames := ⟨closure, h, 0, base⟩ :: m.frames }

/-- Make an instance of a class in place of the class, and run its initializer. -/
def construct (cls : Handle) (methods : Table) (slot count : Nat) : Exec Unit := do
  -- The instance takes the place of the class at once, so the class has to be asked before.
  let initializer := methods.get? (← get).initKey
  setSlot slot (.object (← allocate (.inst cls .empty)))
  match initializer with
  | some (.object method) => call method count
  | some _ => malformed .initializerNotClosure
  | none => if count ≠ 0 then fail (.arityMismatch 0 count)

/-- Call a value whose arguments lie on top of the stack, above the value. -/
def callValue (callee : Value) (count : Nat) : Exec Unit := do
  let h ← orFail .notCallable callee.handle?
  let slot ← calleeSlot count
  match (← get).heap.get? h with
  | some (.bound receiver method) =>
    setSlot slot receiver
    call method count
  | some (.cls _ methods) => construct h methods slot count
  | some (.closure _ _ _) => call h count
  | some (.native native) =>
    let arguments ← valuesAbove slot
    let result := native.apply (← get).uptime arguments
    truncate slot
    push result
  | _ => fail .notCallable

/-- Leave the innermost frame with the popped value. If no frame is left, the script is finished. -/
def returnValue : Exec Unit := do
  let result ← pop
  let left ← frame
  modify fun m => { m with frames := m.frames.tail }
  -- Captured variables take their values along, so they are closed while these are on the stack.
  modify (·.closeFrom left.base)
  truncate left.base
  if (← get).frames.isEmpty then throw (.finished result)
  push result

/-! ## Methods -/

/-- The method of a class, if it is an object. -/
def method? (cls : Handle) (name : Key) : Exec (Option Handle) := do
  return (((← get).heap.methods? cls).bind (·.get? name)).bind Value.handle?

/-- Stop because a property does not exist. -/
def undefinedProperty {α : Type} (name : Key) : Exec α := do
  fail (.undefinedProperty (← textOf name))

/-- Call a method of a class on the receiver below the arguments. -/
def invokeFrom (cls : Handle) (name : Key) (count : Nat) : Exec Unit := do
  match ← method? cls name with
  | some method => call method count
  | none => undefinedProperty name

/-- Call a property of the receiver below the arguments: the field if there is one, and otherwise
the method. -/
def invoke (name : Key) (count : Nat) : Exec Unit := do
  let receiver ← peek count
  let (_, cls, fields) ← orFail .onlyInstancesHaveMethods (← instance? receiver)
  match fields.get? name with
  | some value =>
    setSlot (← calleeSlot count) value
    callValue value count
  | none => invokeFrom cls name count

/-- Replace the receiver on top of the stack by its method. -/
def bindMethod (cls : Handle) (name : Key) : Exec Unit := do
  match ← method? cls name with
  | none => undefinedProperty name
  | some method =>
    let receiver ← peek 0
    -- The receiver stays on the stack until the bound method refers to it.
    let bound ← allocate (.bound receiver method)
    discard pop
    push (.object bound)

/-- Replace an instance on top of the stack by its field, or by its method. -/
def getProperty (name : Key) : Exec Unit := do
  let receiver ← peek 0
  let (_, cls, fields) ← orFail .onlyInstancesHaveProperties (← instance? receiver)
  match fields.get? name with
  | some value =>
    discard pop
    push value
  | none => bindMethod cls name

/-- Set a field of the instance below the top value, and leave the value alone on the stack. -/
def setProperty (name : Key) : Exec Unit := do
  let target ← peek 1
  let value ← peek 0
  let (h, _, fields) ← orFail .onlyInstancesHaveFields (← instance? target)
  modifyHeap fun heap => (heap.setFields h (fields.insert name value).2).recharge h
  discard pop
  discard pop
  push value

/-- Pop a class. -/
def popClass : Exec Handle := do
  let (h, _) ← orFail .superclassMustBeClass (← class? (← pop))
  return h

/-- Copy the methods of the class below the top into the class on top, and pop that. -/
def inherit : Exec Unit := do
  let superclass ← peek 1
  let subclass ← peek 0
  let (_, inherited) ← orFail .superclassMustBeClass (← class? superclass)
  let (h, methods) ← orMalformed .inheritIntoNonClass (← class? subclass)
  modifyHeap fun heap => (heap.setMethods h (methods.addAll inherited)).recharge h
  discard pop

/-- Pop a value and make it a method of the class below. -/
def defineMethod (name : Key) : Exec Unit := do
  let method ← peek 0
  let (h, methods) ← orMalformed .methodOutsideClass (← class? (← peek 1))
  modifyHeap fun heap => (heap.setMethods h (methods.insert name method).2).recharge h
  discard pop

/-! ## Closures and captured variables -/

/-- The captured variable of a slot, made if no closure has captured the slot yet. -/
def captureSlot (slot : Nat) : Exec Handle := do
  match (← get).openUpvalue? slot with
  | some h => return h
  | none =>
    let h ← allocate (.upvalue (.opened slot))
    modify fun m => { m with openUpvalues := Machine.insertOpen ⟨slot, h⟩ m.openUpvalues }
    return h

/-- The captured variable that a capture stands for. -/
def resolve (capture : Capture) : Exec Handle := do
  if capture.isLocal then captureSlot ((← frame).base + capture.index)
  else upvalue capture.index

/-- Capture variables into a closure, one after the other. -/
def captureAll (closure : Handle) : List Capture → Exec Unit
  | [] => pure ()
  | capture :: rest => do
    let captured ← resolve capture
    if !(← get).heap.contains closure then throw (.broken .lostObject)
    modifyHeap (·.pushCaptured closure captured)
    captureAll closure rest

/-- Push a closure of a function constant. -/
def makeClosure (index : Nat) : Exec Unit := do
  let value ← constant index
  let heap := (← get).heap
  let function? := do
    let h ← value.handle?
    return (h, ← heap.function? h)
  let (h, f) ← orMalformed (.constantNotFunction index) function?
  let captures ← fetchCaptures f.captureCount
  let closure ← allocate (.closure h #[] f.captureCount)
  -- Each capture may allocate, and from now on the stack keeps the closure alive.
  push (.object closure)
  captureAll closure captures

/-- The value of a captured variable. -/
def getUpvalue (index : Nat) : Exec Value := do
  let h ← upvalue index
  let m ← get
  match ← orBroken .lostObject (m.heap.get? h) with
  | .upvalue (.opened slot) => orMalformed .danglingUpvalue m.stack[slot]?
  | .upvalue (.closed value) => return value
  | _ => malformed .danglingUpvalue

/-- Store the top value in a captured variable. -/
def setUpvalue (index : Nat) : Exec Unit := do
  let h ← upvalue index
  let value ← peek 0
  let m ← get
  match ← orBroken .lostObject (m.heap.get? h) with
  | .upvalue (.opened slot) =>
    if slot < m.stack.size then setSlot slot value else malformed .danglingUpvalue
  | .upvalue (.closed _) => modifyHeap (·.setUpvalue h (.closed value))
  | _ => malformed .danglingUpvalue

/-- Close the captured variable of the top slot, and pop the slot. -/
def closeTop : Exec Unit := do
  let size := (← get).stack.size
  if size = 0 then malformed .stackUnderflow
  modify (·.closeFrom (size - 1))
  discard pop

end Exec

end ScriptMachine
