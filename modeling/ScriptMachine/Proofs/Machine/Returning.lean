/-
# Returning closes captured variables

A frame that returns closes the captured variables that live in its slots or
above, and leaves those below open. They take the values of their slots along,
but the result is off the stack by then: a captured variable in the slot of the
result itself finds nothing there, and becomes nil. All others are closed over
the values that they had before the return.

## Main results

* `step_eq`, `Intact.step_of_next?_eq_none` — a step carries out the next instruction, or fails
* `returnValue_eq`, `closeTop_eq` — what the instructions do that close captured variables
* `Reachable.upvalue?_of_ret` — what a return leaves of an open captured variable
-/

import ScriptMachine.Proofs.Machine.Reachable

namespace ScriptMachine

open Heap

/-- The offset of the byte after the instruction that comes next. -/
def Machine.nextIp (m : Machine) : Nat :=
  (do
    let frame ← m.frames.head?
    let f ← m.heap.function? frame.function
    return (Reader.instruction f.chunk.code frame.ip).2).getD 0

/-- The machine that is about to carry out its next instruction. -/
def Machine.fetched (m : Machine) (events : List ExecutionEvent) : Machine :=
  { m.withIp m.nextIp with events }

theorem Machine.stack_closeFrom (m : Machine) (slot : Nat) :
    (m.closeFrom slot).stack = m.stack := by
  rw [Machine.closeFrom_eq]

/-- The next instruction is read in the code of the innermost frame. -/
theorem Machine.exists_read_of_next? {m : Machine} {instruction : Instruction}
    (next : m.next? = some instruction) :
    ∃ f function, m.frames.head? = some f ∧ m.heap.function? f.function = some function ∧
      Reader.instruction function.chunk.code f.ip = (.ok instruction, m.nextIp) := by
  obtain ⟨f, head, next⟩ := Option.bind_eq_some_iff.mp next
  obtain ⟨function, found, next⟩ := Option.bind_eq_some_iff.mp next
  refine ⟨f, function, head, found, ?_⟩
  simp only [nextIp, head, found, Option.bind_eq_bind, Option.bind_some, Option.pure_def,
    Option.getD_some]
  cases read : Reader.instruction function.chunk.code f.ip with
  | mk result ip =>
    rw [read] at next
    cases result with
    | error e => cases next
    | ok i => rw [Option.some.inj next]

/-- A stack that is not empty has a top. -/
theorem Machine.exists_back? {m : Machine} (filled : m.stack.size ≠ 0) :
    ∃ v, m.stack.back? = some v := by
  rw [Array.back?]
  exact ⟨_, Array.getElem?_eq_getElem (by omega)⟩

namespace Exec

variable {m : Machine} {f : Frame} {watch : Option Handle}

theorem peek_eq {v : Value} (top : m.stack.back? = some v) : peek 0 watch m = .ok v m := by
  have inside : 0 < m.stack.size := by
    rw [Array.back?] at top
    obtain ⟨lt, -⟩ := Array.getElem?_eq_some_iff.mp top
    omega
  change (if 0 < m.stack.size then orMalformed .stackUnderflow m.stack[m.stack.size - 1 - 0]?
    else malformed .stackUnderflow : Exec Value) watch m = _
  rw [if_pos inside, Nat.sub_zero, ← Array.back?, top]
  rfl

theorem peek_of_empty (empty : m.stack.size = 0) :
    peek 0 watch m = .error (.failed (.malformed .stackUnderflow)) m := by
  change (if 0 < m.stack.size then _ else malformed .stackUnderflow : Exec Value) watch m = _
  rw [if_neg (by omega)]
  rfl

/-- Popping looks at the value first. -/
theorem pop_eq {v : Value} (top : m.stack.back? = some v) :
    pop watch m = .ok v { m with stack := m.stack.pop } := bind_eq (peek_eq top) _

/-- The instruction pointer is moved past what has been read, also where this is no instruction. -/
theorem fetch_eq (watch : Option Handle) {function : Function} (head : m.frames.head? = some f)
    (found : m.heap.function? f.function = some function) :
    fetch watch m = match (Reader.instruction function.chunk.code f.ip).1 with
      | .ok instruction => .ok instruction (m.withIp m.nextIp)
      | .error e => .error (.failed (.malformed (.fetch e))) (m.withIp m.nextIp) := by
  have pointer : m.nextIp = (Reader.instruction function.chunk.code f.ip).2 := by
    simp only [Machine.nextIp, head, found, Option.bind_eq_bind, Option.bind_some, Option.pure_def,
      Option.getD_some]
  rw [pointer]
  apply (bind_eq (function_eq head found) _).trans
  apply (bind_eq (frame_eq head) _).trans
  cases Reader.instruction function.chunk.code f.ip with
  | mk result ip => cases result <;> rfl

/-- A step carries out the next instruction, after it has moved the instruction pointer past it. -/
theorem step_eq_nextIp (watch : Option Handle) {instruction : Instruction}
    (next : m.next? = some instruction) :
    ∃ events, step watch m = perform instruction.opcode (instruction.operands.getD 0 0)
      (instruction.operands.getD 1 0) watch { m.withIp m.nextIp with events } := by
  obtain ⟨f, function, head, found, read⟩ := Machine.exists_read_of_next? next
  obtain ⟨events, traced⟩ := step_traced watch head found
  -- Events change neither the frames nor the functions.
  have fetched := fetch_eq (m := { m with events }) watch head found
  rw [read] at fetched
  exact ⟨events, traced.trans (bind_eq fetched _)⟩

/-- A step carries out the next instruction, after it has moved the instruction pointer. -/
theorem step_eq (watch : Option Handle) {instruction : Instruction}
    (next : m.next? = some instruction) :
    ∃ events ip, step watch m = perform instruction.opcode (instruction.operands.getD 0 0)
      (instruction.operands.getD 1 0) watch { m.withIp ip with events } := by
  obtain ⟨events, eq⟩ := step_eq_nextIp watch next
  exact ⟨events, m.nextIp, eq⟩

end Exec

namespace Machine

variable {c : Custody} {m : Machine} {watch : Option Handle} {f : Frame} {h : Handle} {j : Nat}

/-- A frame without an instruction to carry out fails. -/
theorem Intact.step_of_next?_eq_none (intact : m.Intact c) (framed : m.frames ≠ [])
    (next : m.next? = none) :
    ∃ kind events, Exec.step watch m = .error (.failed kind) (m.fetched events) := by
  obtain ⟨f, head⟩ := exists_head? framed
  obtain ⟨function, found, -⟩ :=
    function?_of_kind? (intact.functions f (List.mem_of_mem_head? head))
  obtain ⟨events, traced⟩ := Exec.step_traced watch head found
  have fetched := Exec.fetch_eq (m := { m with events }) watch head found
  simp only [Machine.next?, head, found, Option.bind_eq_bind, Option.bind_some] at next
  cases read : (Reader.instruction function.chunk.code f.ip).1 with
  | ok instruction => rw [read] at next; cases next
  | error e =>
    rw [read] at fetched
    exact ⟨.malformed (.fetch e), events, traced.trans (Exec.bind_error fetched _)⟩

/-! ## Closing the top slot -/

theorem closeTop_of_empty (empty : m.stack.size = 0) :
    Exec.closeTop watch m = .error (.failed (.malformed .stackUnderflow)) m := by
  change (if m.stack.size = 0 then _ else _ : Exec Unit) watch m = _
  rw [if_pos empty]
  rfl

/-- The top slot is closed while its value is still there. -/
theorem closeTop_eq (filled : m.stack.size ≠ 0) :
    Exec.closeTop watch m =
      .ok ⟨⟩ { m.closeFrom (m.stack.size - 1) with stack := m.stack.pop } := by
  have stack := m.stack_closeFrom (m.stack.size - 1)
  obtain ⟨v, top⟩ := exists_back? filled
  have popped : Exec.pop watch (m.closeFrom (m.stack.size - 1)) = _ :=
    Exec.pop_eq (by rw [stack]; exact top)
  rw [stack] at popped
  change (if m.stack.size = 0 then _ else _ : Exec Unit) watch m = _
  rw [if_neg filled]
  change (Functor.discard Exec.pop : Exec Unit) watch (m.closeFrom (m.stack.size - 1)) = _
  exact Exec.bind_eq popped fun _ => pure ()

/-! ## Returning -/

theorem push_eq (m : Machine) (v : Value) :
    Exec.push v watch m = if m.config.stackLimit ≤ m.stack.size
      then .error (.failed .operandStackOverflow) m
      else .ok ⟨⟩ { m with stack := m.stack.push v } := by
  change (if m.config.stackLimit ≤ m.stack.size then _ else _ : Exec Unit) watch m = _
  split <;> rfl

theorem heap_left_push (m : Machine) (v : Value) : (m.left (Exec.push v) watch).heap = m.heap := by
  rw [left, push_eq]
  by_cases full : m.config.stackLimit ≤ m.stack.size
  · rw [if_pos full]
  · rw [if_neg full]

/-- What a return leaves below its result: the captured variables from the base on are closed over
what is left of the stack. -/
def unwind (m : Machine) (base : Nat) : Machine :=
  let closed := closeFrom { m with stack := m.stack.pop, frames := m.frames.tail } base
  { closed with stack := closed.stack.take base }

theorem frames_unwind (m : Machine) (base : Nat) : (m.unwind base).frames = m.frames.tail := by
  rw [unwind, closeFrom_eq]

theorem stack_unwind (m : Machine) (base : Nat) :
    (m.unwind base).stack = m.stack.pop.take base := by
  simp only [unwind, stack_closeFrom]

/-- Without its result and its frame a machine is still intact. -/
theorem Intact.popResult (intact : m.Intact c) :
    Intact c { m with stack := m.stack.pop, frames := m.frames.tail } :=
  (intact.withStack fun v mem => intact.stack v (mem_of_mem_pop mem)).popFrame

/-- A return pops the result and the frame before it closes captured variables. -/
theorem returnValue_eq {v : Value} (head : m.frames.head? = some f)
    (top : m.stack.back? = some v) :
    Exec.returnValue watch m = if (m.unwind f.base).frames.isEmpty
      then .error (.finished v) (m.unwind f.base) else Exec.push v watch (m.unwind f.base) := by
  have popped : ({ m with stack := m.stack.pop } : Machine).frames.head? = some f := head
  refine (Exec.bind_eq (Exec.pop_eq top) _).trans ((Exec.bind_eq (Exec.frame_eq popped) _).trans ?_)
  change (if (m.unwind f.base).frames.isEmpty then _ else _ : Exec Unit) watch (m.unwind f.base) = _
  split <;> rfl

theorem heap_left_returnValue (head : m.frames.head? = some f) (filled : m.stack.size ≠ 0) :
    (m.left Exec.returnValue watch).heap =
      (closeFrom { m with stack := m.stack.pop, frames := m.frames.tail } f.base).heap := by
  obtain ⟨v, top⟩ := exists_back? filled
  rw [left, returnValue_eq head top]
  by_cases last : (m.unwind f.base).frames.isEmpty
  · rw [if_pos last]
    rfl
  · rw [if_neg last]
    exact heap_left_push (m.unwind f.base) v

theorem returnValue_of_empty (empty : m.stack.size = 0) :
    Exec.returnValue watch m = .error (.failed (.malformed .stackUnderflow)) m :=
  Exec.bind_error (Exec.bind_error (Exec.peek_of_empty empty) _) _

/-- Without a result a return changes the instruction pointer at most. -/
theorem heap_left_returnValue_of_empty (empty : m.stack.size = 0) :
    (m.left Exec.returnValue watch).heap = m.heap := by
  rw [left, returnValue_of_empty empty]

theorem Intact.upvalue?_returnValue (intact : m.Intact c) (head : m.frames.head? = some f)
    (found : m.heap.upvalue? h = some (.opened j)) :
    (j < f.base → (m.left Exec.returnValue watch).heap.upvalue? h = some (.opened j)) ∧
    ∀ v, f.base ≤ j → m.stack[j]? = some v →
      (m.left Exec.returnValue watch).heap.upvalue? h =
        some (.closed (if j + 1 = m.stack.size then .nil else v)) := by
  by_cases empty : m.stack.size = 0
  · rw [heap_left_returnValue_of_empty empty]
    refine ⟨fun _ => found, fun v _ at_ => ?_⟩
    obtain ⟨inside, -⟩ := Array.getElem?_eq_some_iff.mp at_
    omega
  · have closed := intact.popResult.get?_closeFrom f.base h
    rw [heap_left_returnValue head empty]
    simp only [upvalue?_eq_some_iff, closed, get?_of_upvalue? found]
    refine ⟨fun below => by rw [if_neg (by omega)], fun v above at_ => ?_⟩
    rw [if_pos above]
    obtain ⟨inside, value⟩ := Array.getElem?_eq_some_iff.mp at_
    -- The slot of the result is gone by the time it is read.
    by_cases top : j + 1 = m.stack.size
    · rw [if_pos top, Array.getElem?_eq_none (by rw [Array.size_pop]; omega), Option.getD_none]
    · rw [if_neg top, Array.getElem?_pop, if_pos (by omega), at_, Option.getD_some]

/-- What a return does to an open captured variable. Below the base of the frame it stays open, and
otherwise it is closed over the value of its slot, unless this is the slot of the result: then it
becomes nil, whatever the result is. -/
theorem Reachable.upvalue?_of_ret {instruction : Instruction} (reachable : m.Reachable .any)
    (next : m.next? = some instruction) (ret : instruction.opcode = .ret)
    (head : m.frames.head? = some f) (found : m.heap.upvalue? h = some (.opened j)) :
    (j < f.base → (m.left Exec.step none).heap.upvalue? h = some (.opened j)) ∧
    ∀ v, f.base ≤ j → m.stack[j]? = some v →
      (m.left Exec.step none).heap.upvalue? h =
        some (.closed (if j + 1 = m.stack.size then .nil else v)) := by
  obtain ⟨events, ip, eq⟩ := Exec.step_eq none next
  -- Moving the instruction pointer and recording events touches neither the heap nor the stack.
  have same : m.left Exec.step none =
      left { m.withIp ip with events } Exec.returnValue none := by
    rw [left, eq, ret]
    rfl
  have head' : ({ m.withIp ip with events } : Machine).frames.head? = some { f with ip } := by
    obtain ⟨rest, eq⟩ := List.head?_eq_some_iff.mp head
    change (m.frames.modifyHead _).head? = _
    rw [eq]
    rfl
  rw [same]
  exact ((reachable.intact.withIp ip).withEvents events).upvalue?_returnValue
    (f := { f with ip }) head' found

/-- A machine that is about to return from a script whose first two slots are captured. The second
one holds a number, which is also the result. -/
def returning : Machine :=
  let m := start {} default .zero
  let (g, m) := m.allocate (.function ⟨none, 0, 2, default⟩) []
  let code := #[Opcode.constant.byte, 1, Opcode.closure.byte, 2, 1, 0, 1, 1, Opcode.pop.byte,
    Opcode.ret.byte]
  let script : Chunk Value := ⟨code, #[], #[.nil, .number (.ofNat 5), .object g]⟩
  let (function, m) := m.allocate (.function (.script script)) []
  (((m.left (enter function) none).left Exec.step none).left Exec.step none).left Exec.step none

/-- The number is lost, and the other variable keeps its value. -/
theorem upvalue?_of_ret_returning :
    returning.Reachable .any ∧ returning.next? = some ⟨.ret, []⟩ ∧
    returning.heap.upvalue? ⟨7⟩ = some (.opened 0) ∧
    returning.heap.upvalue? ⟨8⟩ = some (.opened 1) ∧
    returning.stack[0]? = some (.object ⟨5⟩) ∧ returning.stack[1]? = some (.number (.ofNat 5)) ∧
    (returning.left Exec.step none).heap.upvalue? ⟨7⟩ = some (.closed (.object ⟨5⟩)) ∧
    (returning.left Exec.step none).heap.upvalue? ⟨8⟩ = some (.closed .nil) := by
  have promised {m : Machine} {h : Handle} : m.heap.Holds .any h := trivial
  have honest {m : Machine} : m.Honest .any := fun _ _ _ _ _ _ _ => trivial
  have reachable : returning.Reachable .any := by
    refine .left_step (.left_step (.left_step (.left_enter ?_ ?_) honest ?_) honest ?_) honest ?_
    · exact ((Reachable.start _ _ _).allocate _ [] fun _ _ => promised).allocate _ []
        fun _ _ => promised
    all_goals decide +kernel
  have next : returning.next? = some ⟨.ret, []⟩ := by decide +kernel
  have head : returning.frames.head? = some ⟨⟨5⟩, ⟨4⟩, 9, 0⟩ := by decide +kernel
  have first : returning.heap.upvalue? ⟨7⟩ = some (.opened 0) := by decide +kernel
  have second : returning.heap.upvalue? ⟨8⟩ = some (.opened 1) := by decide +kernel
  have callee : returning.stack[0]? = some (.object ⟨5⟩) := by decide +kernel
  have number : returning.stack[1]? = some (.number (.ofNat 5)) := by decide +kernel
  have size : returning.stack.size = 2 := by decide +kernel
  have kept := (reachable.upvalue?_of_ret next rfl head first).2 _ (Nat.le_refl 0) callee
  have lost := (reachable.upvalue?_of_ret next rfl head second).2 _ (Nat.zero_le 1) number
  rw [size] at kept lost
  exact ⟨reachable, next, first, second, callee, number, kept, lost⟩

end Machine

end ScriptMachine
