/-
# Runs

A run starts a function as a script and takes steps until the machine stops.
Programs may run for ever, so a run is given a bound on its steps. After an
error the backtrace is taken and the machine is brought back to rest: the
captured variables are closed, and the stack and the frames are dropped.
-/

import ScriptMachine.Machine.Step

namespace ScriptMachine

/-- How a run ends. -/
inductive Outcome
  | value (v : Value)
  | compileError (e : CompileError)
  | runtimeError (e : RuntimeError)
  /-- The machine has broken a promise to itself. -/
  | fault (f : Fault)
  /-- The bound on the steps was reached. -/
  | unfinished
  deriving DecidableEq, Repr

/-- What turns a source text into the handle of a function, through the machine that is to run
it. -/
abbrev Compiler := String → Machine → Except CompileError Handle × Machine

namespace Machine

/-- The entry of a frame in a backtrace: the line of the last byte that the frame has read. -/
def backtraceEntry? (m : Machine) (frame : Frame) : Option BacktraceEntry := do
  let f ← m.heap.function? frame.function
  return ⟨(f.chunk.line? (frame.ip - 1)).getD 0, m.heap.functionName? f⟩

/-- The backtrace of all frames, the innermost first, if their functions are there. -/
def backtrace? (m : Machine) : Option (List BacktraceEntry) := m.frames.mapM m.backtraceEntry?

/-- Bring the machine to rest: no stack, no frames and no open captured variables. -/
def reset (m : Machine) : Machine := { m.closeFrom 0 with stack := #[], frames := [] }

/-- Record an event, if execution is traced. -/
def record (m : Machine) (event : ExecutionEvent) : Machine :=
  if m.config.diagnostics.traceExecution then { m with events := event :: m.events } else m

/-- End a run in the state in which the machine has stopped. -/
def conclude (m : Machine) : Stop → Outcome × Machine
  | .finished v => (.value v, m)
  | .broken f => (.fault f, m)
  | .paused => (.unfinished, m)
  | .failed kind =>
    match m.backtrace? with
    | none => (.fault .lostFunction, m)
    | some backtrace =>
      let e : RuntimeError := ⟨kind, backtrace⟩
      (.runtimeError e, (m.record (.failure e)).reset)

/-- Take steps until the machine stops, at most as many as `bound`. -/
def steps : (bound : Nat) → Machine → Option Stop × Machine
  | 0, m => (none, m)
  | bound + 1, m =>
    match Exec.step none m with
    | .ok _ m => steps bound m
    | .error stop m => (some stop, m)

/-- Put a closure of a function on the stack and enter it. -/
def enter (function : Handle) : Exec Unit := do
  discard (Exec.orFail .notCallable ((← get).heap.function? function))
  -- The function is kept alive on the stack until its closure is.
  Exec.push (.object function)
  let closure ← Exec.allocate (.closure function #[] 0)
  discard Exec.pop
  Exec.push (.object closure)
  Exec.call closure 0

/-- Run a function as a script. -/
def runFunction (bound : Nat) (m : Machine) (function : Handle) : Outcome × Machine :=
  match enter function none m with
  | .error stop m => m.conclude stop
  | .ok _ m =>
    match steps bound m with
    | (none, m) => (.unfinished, m)
    | (some stop, m) => m.conclude stop

/-- Run a chunk as a script. -/
def runChunk (bound : Nat) (m : Machine) (chunk : Chunk Value) : Outcome × Machine :=
  let (function, m) := m.allocate (.function (.script chunk)) []
  m.runFunction bound function

/-- Compile a source text and run it. -/
def runSource (bound : Nat) (m : Machine) (compile : Compiler) (source : String) :
    Outcome × Machine :=
  match compile source m with
  | (.error e, m) => (.compileError e, m)
  | (.ok function, m) => m.runFunction bound function

end Machine

end ScriptMachine
