/-
# Expressions are computed

The code of an arithmetic expression leaves the value of the expression on top
of the stack, and everything else as it was. It has no more to say than that: it
neither prints, nor touches a global, nor allocates. While it runs it needs some
room on the stack, and if there is less, it fails as soon as it has used up what
there is.

A script that is nothing but an expression needs one slot more for itself.

## Main definitions

* `Chunk.Begins` — another chunk begins with all that is in this one
* `Chunk.loading` — the chunk with the load of one more constant
* `Machine.reached` — a machine that has come to another place with another stack

## Main results

* `Expression.exists_write` — an expression with few literals can be written
* `Expression.computes` — its code leaves its value, or there is no room for it
* `Machine.enter_eq` — what entering a script leaves
* `Machine.Occurs.computes` — a script returns the value of its expression
-/

import ScriptMachine.Expression
import ScriptMachine.Proofs.Bytecode.Writing
import ScriptMachine.Proofs.Machine.Dispatching
import ScriptMachine.Proofs.Machine.Failing
import ScriptMachine.Proofs.Machine.Resting

namespace ScriptMachine

open Heap
open Chunk (Writer indexLimit shortIndexLimit)

/-! ## Chunks that go on -/

namespace Chunk

variable {V : Type}

/-- The other chunk begins with the code and the constants of this one. -/
structure Begins (c c' : Chunk V) : Prop where
  code : c.code.toList <+: c'.code.toList
  constants : c.constants.toList <+: c'.constants.toList

variable {c c' c'' : Chunk V} {v : V} {index line : Nat}

theorem Begins.refl (c : Chunk V) : c.Begins c := ⟨List.prefix_rfl, List.prefix_rfl⟩

theorem Begins.trans (begins : c.Begins c') (begins' : c'.Begins c'') : c.Begins c'' :=
  ⟨begins.code.trans begins'.code, begins.constants.trans begins'.constants⟩

theorem Begins.size_le (begins : c.Begins c') : c.size ≤ c'.size := begins.code.length_le

theorem Begins.constant?_eq (begins : c.Begins c') (found : c.constant? index = some v) :
    c'.constant? index = some v := by
  rw [constant?, ← Array.getElem?_toList] at found ⊢
  obtain ⟨inside, rfl⟩ := List.getElem?_eq_some_iff.1 found
  rw [begins.constants.getElem inside]
  exact List.getElem?_eq_getElem _

theorem begins_writeAll (c : Chunk V) (bytes : List UInt8) (line : Nat) :
    c.Begins (c.writeAll bytes line) :=
  ⟨⟨bytes, (toList_code_writeAll ..).symm⟩, by rw [constants_writeAll]⟩

theorem begins_addConstant (c : Chunk V) (v : V) : c.Begins (c.addConstant v).2 :=
  ⟨List.prefix_rfl, ⟨[v], by simp [addConstant]⟩⟩

/-- The chunk with a value added to its constants and an instruction that loads it. -/
def loading (c : Chunk V) (v : V) (line : Nat) : Chunk V :=
  (c.addConstant v).2.writeAll (Entry.load c.constants.size line).bytes line

theorem loadConstant_eq (c : Chunk V) (v : V) (line : Nat) : c.loadConstant v line =
    if c.constants.size < indexLimit then .ok (c.constants.size, c.loading v line)
      else .error .tooManyConstants := by
  rw [loadConstant, Writer.outcome, Writer.run_loadConstant]
  by_cases room : c.constants.size < indexLimit
  · rw [if_pos room, if_pos room]
    rfl
  · rw [if_neg room, if_neg room]

theorem begins_loading (c : Chunk V) (v : V) (line : Nat) : c.Begins (c.loading v line) :=
  (c.begins_addConstant v).trans (begins_writeAll ..)

theorem constant?_loading (c : Chunk V) (v : V) (line : Nat) :
    (c.loading v line).constant? c.constants.size = some v := by
  simp [loading, constant?, addConstant]

theorem size_lt_size_loading (c : Chunk V) (v : V) (line : Nat) :
    c.size < (c.loading v line).size := by
  rw [loading, size_writeAll]
  exact Nat.lt_add_of_pos_right (Nat.succ_pos _)

end Chunk

/-! ## Taking steps -/

namespace Machine

variable {m m' : Machine} {stop : Stop} {n ip : Nat} {stack : Array Value}
  {events : List ExecutionEvent} {full : Chunk Value}

theorem steps_add (ran : m.steps n = (none, m')) (bound : Nat) :
    m.steps (n + bound) = m'.steps bound := by
  induction n generalizing m with
  | zero =>
    cases ran
    rw [Nat.zero_add]
  | succ n ih =>
    rw [Nat.succ_add]
    rw [steps] at ran ⊢
    split at ran
    · exact ih ran
    · cases ran

/-- A machine that has stopped stays so, however many steps it may take. -/
theorem steps_of_stopped (ran : m.steps n = (some stop, m')) {bound : Nat} (le : n ≤ bound) :
    m.steps bound = (some stop, m') := by
  induction n generalizing m bound with
  | zero => cases ran
  | succ n ih =>
    obtain ⟨bound, rfl⟩ : ∃ b, bound = b + 1 := ⟨bound - 1, by omega⟩
    rw [steps] at ran ⊢
    split at ran
    · exact ih ran (by omega)
    · exact ran

theorem steps_one (ran : Exec.step none m = .ok ⟨⟩ m') : m.steps 1 = (none, m') := by
  rw [steps, ran]
  rfl

theorem steps_one_of_error (ran : Exec.step none m = .error stop m') :
    m.steps 1 = (some stop, m') := by
  rw [steps, ran]

/-- The machine when it has come to an offset in its frame, with another stack. -/
def reached (m : Machine) (ip : Nat) (stack : Array Value) (events : List ExecutionEvent) :
    Machine := { m.withIp ip with stack, events }

@[simp] theorem stack_reached (m : Machine) (ip : Nat) (stack : Array Value)
    (events : List ExecutionEvent) : (m.reached ip stack events).stack = stack := rfl

@[simp] theorem config_reached (m : Machine) (ip : Nat) (stack : Array Value)
    (events : List ExecutionEvent) : (m.reached ip stack events).config = m.config := rfl

theorem reached_reached (m : Machine) (ip ip' : Nat) (stack stack' : Array Value)
    (events events' : List ExecutionEvent) :
    (m.reached ip stack events).reached ip' stack' events' = m.reached ip' stack' events' :=
  congrArg (fun frames => { m with frames, stack := stack', events := events' })
    (m.frames_withIp_withIp ip ip')

/-- The machine runs a chunk and stands at an offset. -/
def Faces (m : Machine) (full : Chunk Value) (ip : Nat) : Prop :=
  ∃ f function, m.frames.head? = some f ∧ m.heap.function? f.function = some function ∧
    function.chunk = full ∧ f.ip = ip

theorem Faces.reached (faces : m.Faces full ip) (ip' : Nat) (stack : Array Value)
    (events : List ExecutionEvent) : (m.reached ip' stack events).Faces full ip' := by
  obtain ⟨f, function, head, found, same, -⟩ := faces
  exact ⟨{ f with ip := ip' }, function, Exec.head?_withIp head ip', found, same, rfl⟩

/-- A step carries out the instruction that was written where the machine stands. -/
theorem Faces.step_eq {c : Chunk Value} {e : Entry} {line : Nat} (faces : m.Faces full c.size)
    (fits : e.Fits) (alone : e.pairs = []) (begins : (c.writeAll e.bytes line).Begins full) :
    ∃ events, Exec.step none m = Exec.perform e.instruction.opcode
      (e.instruction.operands.getD 0 0) (e.instruction.operands.getD 1 0) none
        (m.reached (c.size + e.size) m.stack events) := by
  obtain ⟨f, function, head, found, rfl, here⟩ := faces
  obtain ⟨after, spelled⟩ := begins.code
  rw [Chunk.toList_code_writeAll, List.append_assoc] at spelled
  have read := fits.instruction_eq spelled.symm
  have size : c.code.toList.length = f.ip := here.symm
  rw [size] at read
  have next : m.next? = some e.instruction := by
    simp [Machine.next?, head, found, read, Except.toOption]
  have pointer : m.nextIp = c.size + e.size := by
    simp only [Machine.nextIp, head, found, read, Option.bind_eq_bind, Option.bind_some,
      Option.pure_def, Option.getD_some, Entry.size, alone, List.length_nil]
    omega
  obtain ⟨events, step⟩ := Exec.step_eq_nextIp none next
  exact ⟨events, pointer ▸ step⟩

/-- The same for an instruction without operands. -/
theorem Faces.step_emit {c : Chunk Value} {op : Opcode} {line : Nat} (faces : m.Faces full c.size)
    (plain : op.operands = []) (begins : (c.emit op [] line).Begins full) :
    ∃ events, Exec.step none m =
      Exec.perform op 0 0 none (m.reached (c.size + 1) m.stack events) := by
  let e : Entry := ⟨⟨op, []⟩, [], line⟩
  have fits : e.Fits := ⟨by simp only [e, plain]; exact .nil, fun some => absurd rfl some⟩
  have bytes : e.bytes = [op.byte] := by simp [e, Entry.bytes, plain, Operand.bytes, Capture.bytes]
  have size : e.size = 1 := by rw [← fits.length_bytes, bytes]; rfl
  have begins : (c.writeAll e.bytes line).Begins full := bytes ▸ begins
  have step := faces.step_eq fits rfl begins
  rwa [size] at step

/-- Within so many steps the machine comes to an offset, with this stack. -/
def Comes (m : Machine) (bound ip : Nat) (stack : Array Value) : Prop :=
  ∃ n ≤ bound, ∃ events, m.steps n = (none, m.reached ip stack events)

/-- Within so many steps there is no room left on the stack. -/
def Overflows (m : Machine) (bound : Nat) : Prop :=
  ∃ n ≤ bound, ∃ ip stack events,
    m.steps n = (some (.failed .operandStackOverflow), m.reached ip stack events)

variable {bound bound' ip' : Nat} {stack' : Array Value}

theorem Comes.one (ran : Exec.step none m = .ok ⟨⟩ (m.reached ip stack events)) :
    m.Comes 1 ip stack := ⟨1, Nat.le_refl 1, events, steps_one ran⟩

theorem Comes.trans (comes : m.Comes bound ip stack)
    (later : ∀ events, (m.reached ip stack events).Comes bound' ip' stack') :
    m.Comes (bound + bound') ip' stack' := by
  obtain ⟨n, within, events, ran⟩ := comes
  obtain ⟨n', within', events', ran'⟩ := later events
  refine ⟨n + n', Nat.add_le_add within within', events', ?_⟩
  rw [steps_add ran, ran', reached_reached]

theorem Comes.overflows (comes : m.Comes bound ip stack)
    (later : ∀ events, (m.reached ip stack events).Overflows bound') :
    m.Overflows (bound + bound') := by
  obtain ⟨n, within, events, ran⟩ := comes
  obtain ⟨n', within', ip', stack', events', ran'⟩ := later events
  refine ⟨n + n', Nat.add_le_add within within', ip', stack', events', ?_⟩
  rw [steps_add ran, ran', reached_reached]

theorem Comes.mono (comes : m.Comes bound ip stack) (le : bound ≤ bound') :
    m.Comes bound' ip stack := by
  obtain ⟨n, within, rest⟩ := comes
  exact ⟨n, within.trans le, rest⟩

theorem Overflows.mono (overflows : m.Overflows bound) (le : bound ≤ bound') :
    m.Overflows bound' := by
  obtain ⟨n, within, rest⟩ := overflows
  exact ⟨n, within.trans le, rest⟩

end Machine

/-! ## Instructions with numbers -/

namespace Exec

open Machine

variable {m : Machine} {a b : Number}

/-- Either form of the load pushes the constant. -/
theorem perform_load_eq {index line : Nat} {v : Value} (there : constant index none m = .ok v m) :
    perform (Entry.load index line).instruction.opcode index 0 none m = push v none m := by
  by_cases short : index < shortIndexLimit
  · simp only [Entry.load, short, if_true]
    exact bind_eq there _
  · simp only [Entry.load, short, if_false]
    exact bind_eq there _

theorem negate_eq (limit : m.stack.size ≤ m.config.stackLimit)
    (top : m.stack.back? = some (.number a)) :
    negate none m = .ok ⟨⟩ { m with stack := m.stack.pop.push (.number (-a)) } :=
  (bind_eq (peek_eq top) _).trans (replaceTop_eq limit top _)

/-- An operator replaces two numbers by its result. -/
theorem perform_operator_eq (op : Operator) {below : Array Value}
    (stack : m.stack = (below.push (.number a)).push (.number b))
    (limit : m.stack.size ≤ m.config.stackLimit) : perform op.opcode 0 0 none m =
      .ok ⟨⟩ { m with stack := below.push (.number (op.apply a b)) } := by
  have two : 1 < m.stack.size := by simp [stack]
  have under : peek 1 none m = .ok (.number a) m :=
    peek_eq_getElem? two (by simp [stack, Array.getElem_push])
  have top : peek 0 none m = .ok (.number b) m := peek_eq (by rw [stack, Array.back?_push])
  have replaced (n : Number) := replaceTwo_eq limit two (.number n)
  simp only [stack, Array.pop_push] at replaced
  cases op with
  | add | subtract | multiply | divide =>
    exact (bind_eq under _).trans ((bind_eq top _).trans (replaced _))

end Exec

/-- The instruction that loads a constant pushes it, or there is no room for it. -/
theorem Machine.Faces.step_loading {m : Machine} {c full : Chunk Value} {v : Value} {line : Nat}
    (faces : m.Faces full c.size) (room : c.constants.size < indexLimit)
    (begins : (c.loading v line).Begins full) : ∃ events, Exec.step none m =
      if m.config.stackLimit ≤ m.stack.size
        then .error (.failed .operandStackOverflow)
          (m.reached (c.loading v line).size m.stack events)
        else .ok ⟨⟩ (m.reached (c.loading v line).size (m.stack.push v) events) := by
  have fits := Entry.fits_load room line
  have size : (c.loading v line).size = c.size + (Entry.load c.constants.size line).size := by
    rw [Chunk.loading, Chunk.size_writeAll, fits.length_bytes]
    rfl
  obtain ⟨events, step⟩ := faces.step_eq (c := (c.addConstant v).2) fits rfl begins
  obtain ⟨f, function, head, found, same, -⟩ :=
    faces.reached (c.loading v line).size m.stack events
  have held := begins.constant?_eq (c.constant?_loading v line)
  have there : Exec.constant c.constants.size none
      (m.reached (c.loading v line).size m.stack events) = _ :=
    Exec.constant_eq head found (same ▸ held)
  have pushed : Exec.push v none (m.reached (c.loading v line).size m.stack events) = _ :=
    Machine.push_eq ..
  rw [← Exec.perform_load_eq there] at pushed
  exact ⟨events, step.trans (size ▸ pushed)⟩

/-! ## Writing and computing -/

namespace Expression

variable {e left right : Expression} {c c₁ c₂ : Chunk Value} {line : Nat}

/-- What follows the first chunk in the second one computes the expression, if there is room for
that on the stack, and otherwise overflows it. -/
structure Compiles (e : Expression) (c c' : Chunk Value) : Prop where
  begins : c.Begins c'
  constants : c'.constants.size = c.constants.size + e.literalCount
  comes : ∀ full m, c'.Begins full → Machine.Faces m full c.size →
    m.stack.size + e.stackNeed ≤ m.config.stackLimit →
      m.Comes (c'.size - c.size) c'.size (m.stack.push (.number e.eval))
  overflows : ∀ full m, c'.Begins full → Machine.Faces m full c.size →
    m.stack.size ≤ m.config.stackLimit → m.config.stackLimit < m.stack.size + e.stackNeed →
      m.Overflows (c'.size - c.size)

theorem one_le_stackNeed (e : Expression) : 1 ≤ e.stackNeed := by
  induction e with
  | literal n => exact Nat.le_refl 1
  | negate e ih => exact ih
  | binary op left right ihl ihr => exact ihl.trans (Nat.le_max_left _ _)

theorem begins_emit (c : Chunk Value) (op : Opcode) (line : Nat) : c.Begins (c.emit op [] line) :=
  c.begins_writeAll [op.byte] line

/-- A literal is added to the pool and loaded. -/
theorem compiles_literal (n : Number) (line : Nat) (room : c.constants.size < indexLimit) :
    (literal n).Compiles c (c.loading (.number n) line) := by
  have one : 1 ≤ (c.loading (.number n) line).size - c.size := by
    have := c.size_lt_size_loading (.number n) line
    omega
  refine ⟨c.begins_loading _ line, ?_, ?_, ?_⟩
  · simp [Chunk.loading, Chunk.addConstant, literalCount]
  · intro full m begins faces free
    obtain ⟨events, step⟩ := faces.step_loading room begins
    rw [if_neg (Nat.not_le.2 free)] at step
    exact (Machine.Comes.one step).mono one
  · intro full m begins faces limit short
    obtain ⟨events, step⟩ := faces.step_loading room begins
    rw [if_pos (Nat.le_of_lt_succ short)] at step
    exact ⟨1, one, _, _, events, Machine.steps_one_of_error step⟩

/-- The instruction of an operator comes after the operands. -/
theorem comes_emit {full : Chunk Value} {m : Machine} {op : Opcode} {stack : Array Value}
    (faces : m.Faces full c.size) (plain : op.operands = [])
    (begins : (c.emit op [] line).Begins full)
    (performs : ∀ m' : Machine, m'.stack = m.stack → m'.config = m.config →
      Exec.perform op 0 0 none m' = .ok ⟨⟩ { m' with stack }) :
    m.Comes 1 (c.emit op [] line).size stack := by
  obtain ⟨events, step⟩ := faces.step_emit plain begins
  rw [performs (m.reached (c.size + 1) m.stack events) rfl rfl] at step
  rw [Chunk.size_emit]
  exact .one step

theorem Compiles.negate (compiles : e.Compiles c c₁) (line : Nat) :
    (Expression.negate e).Compiles c (c₁.emit .negate [] line) := by
  have begins := begins_emit c₁ .negate line
  have size : (c₁.emit .negate [] line).size = c₁.size + 1 := Chunk.size_emit ..
  have le := compiles.begins.size_le
  refine ⟨compiles.begins.trans begins, compiles.constants, ?_, ?_⟩
  · intro full m within faces room
    have need := e.one_le_stackNeed
    rw [stackNeed] at room
    have first := compiles.comes full m (begins.trans within) faces room
    have second : m.Comes (c₁.size - c.size + 1) (c₁.emit .negate [] line).size
        (m.stack.push (.number (-e.eval))) := by
      refine first.trans fun events => comes_emit (faces.reached c₁.size _ events) rfl within
        fun m' stack config => (Exec.negate_eq (a := e.eval) ?_ ?_).trans ?_
      · rw [stack, config, Machine.stack_reached, Machine.config_reached, Array.size_push]
        omega
      · rw [stack, Machine.stack_reached, Array.back?_push]
      · rw [stack, Machine.stack_reached, Array.pop_push]
    exact second.mono (by omega)
  · intro full m within faces limit short
    exact (compiles.overflows full m (begins.trans within) faces limit short).mono (by omega)

/-- The right operand is computed while the value of the left one lies below. -/
theorem Compiles.binary (compiles : left.Compiles c c₁) (compiles' : right.Compiles c₁ c₂)
    (op : Operator) (line : Nat) :
    (Expression.binary op left right).Compiles c (c₂.emit op.opcode [] line) := by
  have begins := begins_emit c₂ op.opcode line
  have begins' := compiles'.begins.trans begins
  have size : (c₂.emit op.opcode [] line).size = c₂.size + 1 := Chunk.size_emit ..
  have le := compiles.begins.size_le
  have le' := compiles'.begins.size_le
  refine ⟨compiles.begins.trans begins', ?_, ?_, ?_⟩
  · change c₂.constants.size = _
    rw [compiles'.constants, compiles.constants, literalCount, Nat.add_assoc]
  · intro full m within faces room
    rw [stackNeed] at room
    have need := right.one_le_stackNeed
    have plain : op.opcode.operands = [] := by cases op <;> rfl
    have first := compiles.comes full m (begins'.trans within) faces (by omega)
    have second : m.Comes (c₁.size - c.size + (c₂.size - c₁.size)) c₂.size
        ((m.stack.push (.number left.eval)).push (.number right.eval)) := by
      refine first.trans fun events => compiles'.comes full _ (begins.trans within)
        (faces.reached c₁.size _ events) ?_
      rw [Machine.stack_reached, Machine.config_reached, Array.size_push]
      omega
    have third : m.Comes (c₁.size - c.size + (c₂.size - c₁.size) + 1)
        (c₂.emit op.opcode [] line).size
        (m.stack.push (.number (op.apply left.eval right.eval))) := by
      refine second.trans fun events => comes_emit (faces.reached c₂.size _ events) plain within
        fun m' stack config => Exec.perform_operator_eq op stack ?_
      rw [stack, config, Machine.stack_reached, Machine.config_reached, Array.size_push,
        Array.size_push]
      omega
    exact third.mono (by omega)
  · intro full m within faces limit short
    rw [stackNeed] at short
    by_cases room : m.stack.size + left.stackNeed ≤ m.config.stackLimit
    · have first := compiles.comes full m (begins'.trans within) faces room
      have need := left.one_le_stackNeed
      refine (first.overflows fun events => compiles'.overflows full _ (begins.trans within)
        (faces.reached c₁.size _ events) ?_ ?_).mono (by omega)
      all_goals
        rw [Machine.stack_reached, Machine.config_reached, Array.size_push]
        omega
    · have first := compiles.overflows full m (begins'.trans within) faces limit (by omega)
      exact first.mono (by omega)

/-- If there is room for its literals, an expression can be written. -/
theorem exists_write (e : Expression) (line : Nat) (c : Chunk Value)
    (room : c.constants.size + e.literalCount ≤ indexLimit) :
    ∃ c', write c line e = .ok c' ∧ e.Compiles c c' := by
  induction e generalizing c with
  | literal n =>
    have room : c.constants.size < indexLimit := room
    refine ⟨_, ?_, compiles_literal n line room⟩
    rw [write, Chunk.loadConstant_eq, if_pos room]
    rfl
  | negate e ih =>
    obtain ⟨c₁, written, compiles⟩ := ih c room
    exact ⟨_, by rw [write, written]; rfl, compiles.negate line⟩
  | binary op left right ihl ihr =>
    rw [literalCount] at room
    obtain ⟨c₁, written, compiles⟩ := ihl c (by omega)
    obtain ⟨c₂, written', compiles'⟩ := ihr c₁ (by rw [compiles.constants]; omega)
    refine ⟨_, ?_, compiles.binary compiles' op line⟩
    simp only [write, written, written', bind, Except.bind]
    rfl

end Expression

/-! ## Scripts -/

namespace Machine

variable {m₀ m : Machine} {h : Handle} {f : Function}

/-- Without room for the function nothing is entered. -/
theorem enter_of_full (found : m.heap.function? h = some f)
    (full : m.config.stackLimit ≤ m.stack.size) :
    enter h none m = .error (.failed .operandStackOverflow) m := by
  have pushed : Exec.push (.object h) none m = _ := push_eq ..
  rw [if_pos full] at pushed
  change (Functor.discard (Exec.orFail .notCallable (m.heap.function? h)) >>= _ : Exec Unit) none m
    = _
  rw [found]
  exact Exec.bind_error pushed _

/-- Entering a function at rest leaves nothing but its closure, on the stack and in a frame. -/
theorem AtRest.enter_eq (rest : m.AtRest) (clean : m.heap.Clean)
    (found : m.heap.function? h = some f) (arity : f.arity = 0) (room : 0 < m.config.stackLimit)
    (depth : 1 ≤ m.config.framesMax) :
    ∃ closure heap, enter h none m = .ok ⟨⟩ { m with
        heap
        stack := #[.object closure]
        frames := [⟨closure, h, 0, 0⟩] } ∧
      heap.function? h = some f ∧ m.heap.Spares heap := by
  let pinned : Machine := { m with stack := m.stack.push (.object h) }
  let made := (pinned.allocate (.closure h #[] 0) []).2
  let closure := (pinned.allocate (.closure h #[] 0) []).1
  let pushed : Machine := { made with stack := #[.object closure] }
  have empty : m.stack.size = 0 := by rw [rest.stack, Array.size_empty]
  have allocated : m.heap.Allocated (.closure h #[] 0) (pinned.roots ++ []) closure made.heap :=
    allocated_allocate clean _ _
  have kept : made.heap.get? h = m.heap.get? h :=
    allocated.get?_kept (.root (by simp [Object.references])
      (contains_of_get? (get?_of_function? found)))
  have found' : made.heap.function? h = some f := by rw [Heap.function?, kept]; exact found
  refine ⟨closure, made.heap, ?_, found', .of_retains allocated.retains⟩
  have pins : Exec.push (.object h) none m = .ok ⟨⟩ pinned := by
    rw [push_eq, if_neg (by omega)]
  have makes : Exec.allocate (.closure h #[] 0) none pinned = .ok closure made := rfl
  have unpins : (discard Exec.pop : Exec Unit) none made =
      .ok ⟨⟩ { made with stack := m.stack } := by
    have top : made.stack.back? = some (.object h) := Array.back?_push ..
    have left : made.stack.pop = m.stack := Array.pop_push
    rw [Exec.discard_pop_eq top, left]
  have pushes : Exec.push (.object closure) none { made with stack := m.stack } =
      .ok ⟨⟩ pushed := by
    have free : ¬ made.config.stackLimit ≤ m.stack.size := by
      change ¬ m.config.stackLimit ≤ m.stack.size
      omega
    rw [push_eq, if_neg free, rest.stack]
    rfl
  have calls : Exec.call closure 0 none pushed =
      .ok ⟨⟩ { pushed with frames := [⟨closure, h, 0, 0⟩] } := by
    have callee : pushed.heap.closureFunction? closure = some h := by
      rw [Heap.closureFunction?, allocated.get?]
    have free : ¬ pushed.config.framesMax ≤ pushed.frames.length := by
      change ¬ m.config.framesMax ≤ m.frames.length
      rw [rest.frames, List.length_nil]
      omega
    rw [Exec.call_of_closure (Nat.zero_lt_one) callee found', if_neg (not_not.mpr arity.symm),
      if_neg free]
    change EStateM.Result.ok _ { pushed with frames := ⟨closure, h, 0, 0⟩ :: m.frames } = _
    rw [rest.frames]
  change (Functor.discard (Exec.orFail .notCallable (m.heap.function? h)) >>= _ : Exec Unit) none m
    = _
  rw [found]
  refine (Exec.bind_eq pins _).trans ((Exec.bind_eq makes _).trans ?_)
  exact (Exec.bind_eq unpins _).trans ((Exec.bind_eq pushes _).trans calls)

/-- Nothing has been printed, the globals are the same, and older objects are as they were. -/
structure Silent (m₀ m : Machine) : Prop where
  sink : m.sink = m₀.sink
  globals : m.globals = m₀.globals
  openUpvalues : m.openUpvalues = []
  spares : m₀.heap.Spares m.heap

theorem closeFrom_of_none (none : m.openUpvalues = []) (slot : Nat) : m.closeFrom slot = m := by
  cases m
  cases none
  rfl

/-- Taking the backtrace and bringing the machine to rest makes no noise either. -/
theorem Silent.conclude (silent : m₀.Silent m) (stop : Stop) :
    m₀.Silent (m.conclude stop).2 := by
  have recorded (event : ExecutionEvent) : m₀.Silent (m.record event).reset := by
    have silent : m₀.Silent (m.record event) := by
      unfold record
      split
      · exact { silent with }
      · exact silent
    rw [reset, closeFrom_of_none silent.openUpvalues]
    exact { silent with }
  unfold Machine.conclude
  split
  · exact silent
  · exact silent
  · exact silent
  · split
    · exact silent
    · exact recorded _

theorem Silent.reached (silent : m₀.Silent m) (ip : Nat) (stack : Array Value)
    (events : List ExecutionEvent) : m₀.Silent (m.reached ip stack events) := { silent with }

theorem Silent.unwind (silent : m₀.Silent m) (base : Nat) : m₀.Silent (m.unwind base) := by
  have none : ({ m with stack := m.stack.pop, frames := m.frames.tail } : Machine).openUpvalues =
      [] := silent.openUpvalues
  rw [Machine.unwind, closeFrom_of_none none]
  exact { silent with }

/-- When the value of the expression has been computed, the script returns it. -/
theorem Silent.step_ret {chunk c : Chunk Value} {line : Nat} {v : Value}
    (begins : (c.emit .ret [] line).Begins chunk) (silent : m₀.Silent m)
    (faces : m.Faces chunk c.size) (top : m.stack.back? = some v) (last : m.frames.tail = []) :
    ∃ m', Exec.step none m = .error (.finished v) m' ∧ m₀.Silent m' := by
  obtain ⟨events, step⟩ := faces.step_emit rfl begins
  obtain ⟨f, -, head, -⟩ := faces.reached (c.size + 1) m.stack events
  have left : ((m.reached (c.size + 1) m.stack events).unwind f.base).frames = [] := by
    rw [frames_unwind]
    change (m.frames.modifyHead _).tail = []
    rw [List.tail_modifyHead, last]
  have returned : Exec.returnValue none (m.reached (c.size + 1) m.stack events) = _ :=
    returnValue_eq head top
  rw [left] at returned
  exact ⟨_, step.trans returned, (silent.reached _ _ _).unwind _⟩

/-- A script that is one expression returns its value, or it overflows the stack. -/
theorem Silent.runs {e : Expression} {c : Chunk Value} {line bound : Nat}
    (compiles : e.Compiles .empty c) (silent : m₀.Silent m)
    (faces : m.Faces (c.emit .ret [] line) 0) (size : m.stack.size = 1)
    (limit : 1 ≤ m.config.stackLimit) (last : m.frames.tail = []) (enough : c.size + 1 ≤ bound) :
    ∃ stop m', m.steps bound = (some stop, m') ∧ m₀.Silent m' ∧
      (e.stackNeed + 1 ≤ m.config.stackLimit → stop = .finished (.number e.eval)) ∧
      (m.config.stackLimit < e.stackNeed + 1 → stop = .failed .operandStackOverflow) := by
  have begins := Expression.begins_emit c .ret line
  by_cases room : e.stackNeed + 1 ≤ m.config.stackLimit
  · obtain ⟨n, within, events, ran⟩ := compiles.comes _ m begins faces (by omega)
    have silent := silent.reached c.size (m.stack.push (.number e.eval)) events
    obtain ⟨m', step, silent'⟩ := silent.step_ret (.refl _) (faces.reached _ _ _)
      (Array.back?_push ..) (by
        change (m.frames.modifyHead _).tail = []
        rw [List.tail_modifyHead, last])
    have stopped : m.steps (n + 1) = (some (.finished (.number e.eval)), m') :=
      (steps_add ran 1).trans (steps_one_of_error step)
    have within : n + 1 ≤ bound := by omega
    exact ⟨_, m', steps_of_stopped stopped within, silent', fun _ => rfl, fun short => by omega⟩
  · obtain ⟨n, within, ip, stack, events, ran⟩ :=
      compiles.overflows _ m begins faces (by omega) (by omega)
    have within : n ≤ bound := by omega
    exact ⟨_, _, steps_of_stopped ran within, silent.reached ip stack events,
      fun fits => absurd fits room, fun _ => rfl⟩

/-- Running such a script at rest ends in one of these ways. -/
theorem Occurs.ends_of_expression {e : Expression} {c : Chunk Value} {line bound : Nat}
    (occurs : m.Occurs) (rest : m.AtRest) (silent : m₀.Silent m) (compiles : e.Compiles .empty c)
    (found : m.heap.function? h = some (.script (c.emit .ret [] line)))
    (depth : 1 ≤ m.config.framesMax) (enough : c.size + 1 ≤ bound) :
    ∃ stop m', m.runFunction bound h = m'.conclude stop ∧ m'.Ends stop ∧ m₀.Silent m' ∧
      (e.stackNeed + 1 ≤ m.config.stackLimit → stop = .finished (.number e.eval)) ∧
      (m.config.stackLimit < e.stackNeed + 1 → stop = .failed .operandStackOverflow) := by
  by_cases room : m.config.stackLimit = 0
  · have refused := enter_of_full found (Nat.le_trans (Nat.le_of_eq room) (Nat.zero_le _))
    refine ⟨_, m, by rw [Machine.runFunction, refused], ?_, silent, fun fits => by omega,
      fun _ => rfl⟩
    exact ends_of_halted ((Exec.Ensures.enter occurs.intact).of_error refused)
  · obtain ⟨closure, heap, entered, found', spares⟩ := rest.enter_eq occurs.intact.heap.clean found
      rfl (Nat.pos_of_ne_zero room) depth
    have silent' : m₀.Silent { m with
        heap, stack := #[.object closure], frames := [⟨closure, h, 0, 0⟩] } :=
      { silent with spares := silent.spares.trans spares }
    obtain ⟨stop, m', ran, silent', ends⟩ := silent'.runs compiles
      ⟨_, _, rfl, found', rfl, rfl⟩ rfl (Nat.one_le_iff_ne_zero.2 room) rfl enough
    refine ⟨stop, m', by rw [Machine.runFunction, entered]; simp only [ran], ?_, silent', ends⟩
    exact (occurs.enter h entered).intact.ends_of_steps (List.cons_ne_nil _ _) ran

/-- A script that was assembled from an arithmetic expression returns its value. It needs one more
slot on the stack than the expression, and fails without it. Either way it prints nothing and leaves
the globals as they were. -/
theorem Occurs.expressions_computed (occurs : m.Occurs) (rest : m.AtRest) (e : Expression)
    (line : Nat) (few : e.literalCount < 2 ^ 24) (depth : 1 ≤ m.config.framesMax) :
    ∃ chunk, e.assemble line = .ok chunk ∧ ∀ bound, chunk.size ≤ bound →
      (e.stackNeed + 1 ≤ m.config.stackLimit →
        (m.runChunk bound chunk).1 = .value (.number e.eval)) ∧
      (m.config.stackLimit < e.stackNeed + 1 → ∃ backtrace,
        (m.runChunk bound chunk).1 = .runtimeError ⟨.operandStackOverflow, backtrace⟩) ∧
      (m.runChunk bound chunk).2.sink = m.sink ∧
      (m.runChunk bound chunk).2.globals = m.globals ∧
      ∀ name, (m.runChunk bound chunk).2.global? name = m.global? name := by
  have few : (Chunk.empty : Chunk Value).constants.size + e.literalCount ≤ indexLimit := by
    change 1 + e.literalCount ≤ 2 ^ 24
    omega
  obtain ⟨c, written, compiles⟩ := e.exists_write line .empty few
  refine ⟨c.emit .ret [] line, by rw [Expression.assemble, written]; rfl, fun bound enough => ?_⟩
  rw [Chunk.size_emit] at enough
  -- First the script is put into the heap.
  let script : Object := .function (.script (c.emit .ret [] line))
  have hosts : m.Hosts (m.allocate script []).2 := .function _ []
  have allocated : m.heap.Allocated script (m.roots ++ []) (m.allocate script []).1
      (m.allocate script []).2.heap := allocated_allocate occurs.intact.heap.clean _ _
  have found : (m.allocate script []).2.heap.function? (m.allocate script []).1 =
      some (.script (c.emit .ret [] line)) := by
    rw [Heap.function?, allocated.get?]
  have silent : m.Silent (m.allocate script []).2 :=
    ⟨rfl, rfl, rest.openUpvalues, .of_retains allocated.retains⟩
  obtain ⟨stop, m', run, ends, silent', fits, short⟩ :=
    (occurs.host hosts).ends_of_expression (hosts.atRest rest) silent compiles found depth enough
  have same : m.runChunk bound (c.emit .ret [] line) = m'.conclude stop := run
  have value (fit : e.stackNeed + 1 ≤ m.config.stackLimit) :
      (m'.conclude stop).1 = .value (.number e.eval) := by
    rw [fits fit] at ends ⊢
    exact ends
  have error (full : m.config.stackLimit < e.stackNeed + 1) : ∃ backtrace,
      (m'.conclude stop).1 = .runtimeError ⟨.operandStackOverflow, backtrace⟩ := by
    rw [short full] at ends ⊢
    exact ends
  have done : (m'.conclude stop).1 ≠ .unfinished := by
    rcases Nat.lt_or_ge m.config.stackLimit (e.stackNeed + 1) with full | fit
    · obtain ⟨backtrace, eq⟩ := error full
      rw [eq]
      intro same
      cases same
    · rw [value fit]
      intro same
      cases same
  rw [← run] at done
  obtain ⟨occurs', -⟩ := (occurs.host hosts).runFunction (hosts.atRest rest) done
  rw [run] at occurs'
  have left := silent'.conclude stop
  have spared : m.Spared (m'.conclude stop).2 :=
    ⟨left.spares, by rw [left.globals]; exact fun _ _ => Iff.rfl⟩
  rw [same]
  exact ⟨value, error, left.sink, left.globals,
    spared.global?_eq occurs.intact.toSound occurs'.intact.toSound⟩

/-- A machine at rest with room for one frame and the given number of values. -/
def confined (slots : Nat) : Machine :=
  start { framesMax := 1, slotsPerFrame := slots } default .zero

/-- Minus two minus three times four. -/
def difference : Expression :=
  .binary .subtract (.negate (.literal (.ofNat 2)))
    (.binary .multiply (.literal (.ofNat 3)) (.literal (.ofNat 4)))

/-- The code of the difference needs three values at once, and the script itself is a fourth. -/
theorem expressions_computed_confined :
    ∃ chunk, difference.assemble 7 = .ok chunk ∧
      ((confined 4).runChunk chunk.size chunk).1 = .value (.number (-.ofNat 14)) ∧
      (∃ backtrace, ((confined 3).runChunk chunk.size chunk).1 =
        .runtimeError ⟨.operandStackOverflow, backtrace⟩) ∧
      ((confined 3).runChunk chunk.size chunk).2.global? "clock" =
        (confined 3).global? "clock" := by
  have occurs (slots : Nat) : (confined slots).Occurs := .start _ _ _
  have rest (slots : Nat) : (confined slots).AtRest :=
    Hosts.atRest (m := blank _ _ _) (.defineNative .clock) ⟨rfl, rfl, rfl⟩
  have value : difference.eval = -.ofNat 14 := by decide +kernel
  have few : difference.literalCount < 2 ^ 24 := by decide +kernel
  obtain ⟨chunk, assembled, runs⟩ :=
    (occurs 4).expressions_computed (rest 4) difference 7 few (by decide)
  obtain ⟨chunk', assembled', runs'⟩ :=
    (occurs 3).expressions_computed (rest 3) difference 7 few (by decide)
  cases assembled.symm.trans assembled'
  obtain ⟨fits, -⟩ := runs chunk.size (Nat.le_refl _)
  obtain ⟨-, overflows, -, -, globals⟩ := runs' chunk.size (Nat.le_refl _)
  exact ⟨chunk, assembled, value ▸ fits (by decide), overflows (by decide), globals "clock"⟩

end Machine

end ScriptMachine
