/-
# The machine

A machine runs byte code on a stack of values. Each call in progress has a
frame, whose base is the stack slot of its callee or receiver; arguments and
local variables lie above the base. A captured variable is open as long as it
lives on the stack; the open ones are listed by their slots, the highest one
first, so that closing all above a slot takes them from the front.

The machine owns a heap and keeps alive what it holds itself: the stack, the
frames, the open captured variables, the globals and the name of
initializers. Whoever allocates through it can name further handles to keep.

## Main definitions

* `Machine`, `Machine.roots` — the state, and what it keeps alive
* `Machine.allocate`, `Machine.intern`, `Machine.collect` — the heap through the machine
* `Machine.defineNative`, `Machine.global?` — globals from outside
* `Machine.blank`, `Machine.start` — a machine at rest, which knows nothing or `clock`
-/

import ScriptMachine.Heap.Allocation
import ScriptMachine.Heap.Display
import ScriptMachine.Machine.Error
import ScriptMachine.Machine.Sink
import ScriptMachine.Natives

namespace ScriptMachine

/-- A call in progress. -/
structure Frame where
  closure : Handle
  /-- The function of the closure. -/
  function : Handle
  /-- The offset of the next byte to read. -/
  ip : Nat
  /-- The stack slot of the callee or receiver. -/
  base : Nat
  deriving DecidableEq, Repr

/-- A captured variable that still lives on the stack. -/
structure OpenUpvalue where
  slot : Nat
  upvalue : Handle
  deriving DecidableEq, Repr

/-- What the machine records when execution is traced. -/
inductive ExecutionEvent
  /-- The texts of the values on the stack, before an instruction. -/
  | stack (texts : List String)
  /-- The listing of the instruction that comes next. -/
  | instruction (listing : String)
  | failure (e : RuntimeError)
  deriving DecidableEq, Repr

/-- The text of an event. -/
def ExecutionEvent.text : ExecutionEvent → String
  | stack texts => "          " ++ String.join (texts.map fun text => s!"[ {text} ]")
  | instruction listing => listing
  | failure e => s!"runtime error: {e.text}"

/-- A machine that runs byte code. -/
structure Machine where
  config : Config
  heap : Heap
  stack : Array Value
  /-- The calls in progress, the innermost first. -/
  frames : List Frame
  globals : Table
  /-- The captured variables on the stack, the highest slot first. -/
  openUpvalues : List OpenUpvalue
  /-- The name of initializers. -/
  initKey : Key
  sink : Sink
  /-- What happened, the latest first, if execution is traced. -/
  events : List ExecutionEvent
  /-- The seconds that the machine has been up, as the host tells it. -/
  uptime : Number

namespace Machine

/-- The handles that the machine keeps alive. -/
def roots (m : Machine) : List Handle :=
  m.stack.toList.filterMap Value.handle?
    ++ m.frames.flatMap (fun frame => [frame.closure, frame.function])
    ++ m.openUpvalues.map (·.upvalue)
    ++ Object.tableReferences m.globals
    ++ [m.initKey.handle]

/-- Put an object into the heap, keeping `extra` alive too. -/
def allocate (m : Machine) (object : Object) (extra : List Handle) : Handle × Machine :=
  let (h, heap) := m.heap.allocate object (m.roots ++ extra)
  (h, { m with heap })

/-- The string with a text, keeping `extra` alive too. -/
def intern (m : Machine) (text : String) (extra : List Handle) : Handle × Machine :=
  let (h, heap) := m.heap.intern text (m.roots ++ extra)
  (h, { m with heap })

/-- Free what the machine does not keep alive. -/
def collect (m : Machine) : Machine := { m with heap := m.heap.collect m.roots }

/-- Make a host function a global. -/
def defineNative (m : Machine) (native : Native) : Machine :=
  let (name, m) := m.intern native.name []
  let (h, m) := m.allocate (.native native) [name]
  let key : Key := ⟨name, Hash.ofText native.name⟩
  { m with globals := (m.globals.insert key (.object h)).2 }

/-- The value of a global. -/
def global? (m : Machine) (name : String) : Option Value := do
  let key ← m.heap.key? (← m.heap.lookup? name)
  m.globals.get? key

/-- A machine at rest without globals. -/
def blank (config : Config) (sink : Sink) (uptime : Number) : Machine :=
  let name := "init"
  let (h, heap) := (Heap.empty config).intern name []
  { config, heap, sink, uptime
    stack := #[]
    frames := []
    globals := .empty
    openUpvalues := []
    initKey := ⟨h, Hash.ofText name⟩
    events := [] }

/-- A machine at rest whose only global is `clock`. -/
def start (config : Config) (sink : Sink) (uptime : Number) : Machine :=
  (blank config sink uptime).defineNative .clock

instance : Inhabited Machine := ⟨start {} default .zero⟩

/-! ## Captured variables -/

/-- The open captured variable of a slot. -/
def openUpvalue? (m : Machine) (slot : Nat) : Option Handle :=
  (m.openUpvalues.find? (·.slot == slot)).map (·.upvalue)

/-- List an open captured variable before those of lower slots. -/
def insertOpen (entry : OpenUpvalue) : List OpenUpvalue → List OpenUpvalue
  | [] => [entry]
  | first :: rest =>
    if first.slot < entry.slot then entry :: first :: rest else first :: insertOpen entry rest

/-- Close an open captured variable over the present value of its slot. -/
def closeOne (stack : Array Value) (heap : Heap) (entry : OpenUpvalue) : Heap :=
  match heap.upvalue? entry.upvalue with
  | some _ => heap.setUpvalue entry.upvalue (.closed (stack[entry.slot]?.getD .nil))
  | none => heap

/-- Close all captured variables that live in a slot or above it. -/
def closeFrom (m : Machine) (slot : Nat) : Machine :=
  let (above, below) := m.openUpvalues.span (slot ≤ ·.slot)
  { m with heap := above.foldl (closeOne m.stack) m.heap, openUpvalues := below }

end Machine

end ScriptMachine
