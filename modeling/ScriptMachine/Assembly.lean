/-
# Assembly

A code generator for a machine, for hosts that write byte code by hand. It
writes a chunk from a list of items and interns the strings among the constants
as it meets them, so a collection may come at any time. What is under
construction is reachable from nowhere else: the constants of the unfinished
chunk and the functions that were finished but not used yet, the pins, are kept
alive by naming them at every allocation. The script that ends the work refers
to all it needs, and is allocated without.

Jumps forward lead to labels. A jump waits with its placeholder until its
label is placed; a label that is placed again serves the jumps that come to
wait later.
-/

import ScriptMachine.Machine.Run

namespace ScriptMachine

/-- A constant of code to assemble. -/
inductive Literal
  | value (v : Value)
  /-- The string with this text. -/
  | text (s : String)
  deriving DecidableEq, Repr

/-- An operand of an instruction to assemble. -/
inductive Argument
  | bytes (bs : List UInt8)
  /-- The last byte of the index of a new constant. -/
  | constant (c : Literal)
  deriving DecidableEq, Repr

/-- A piece of code to assemble. -/
inductive Item
  /-- What follows is on this line. -/
  | line (n : Nat)
  /-- Add a constant and load it. -/
  | load (c : Literal)
  /-- Add a constant. -/
  | constant (c : Literal)
  /-- Load the constant at an index. -/
  | loadIndex (index : Nat)
  | bytes (bs : List UInt8)
  /-- The items, the given number of times. -/
  | times (count : Nat) (items : List Item)
  /-- The target of jumps to this label. -/
  | label (name : String)
  /-- A jump forward to a label that is placed later. -/
  | jumpTo (op : Opcode) (label : String)
  /-- A jump backward to a label that was placed before. -/
  | loopTo (label : String)
  /-- A jump over a given distance. -/
  | jumpBy (op : Opcode) (distance : Nat)
  /-- An instruction with its operands. -/
  | emit (op : Opcode) (arguments : List Argument)
  deriving Repr

/-- Why code cannot be assembled. -/
inductive AssemblyError
  | chunk (e : ChunkError)
  | unknownLabel (name : String)
  deriving DecidableEq, Repr

/-- The wording of an error. -/
def AssemblyError.message : AssemblyError → String
  | chunk e => e.message
  | unknownLabel name => s!"Unknown label '{name}'."

/-- The state of a code generator. -/
structure Assembler where
  machine : Machine
  /-- Functions that are kept alive. -/
  pins : List Handle
  chunk : Chunk Value
  line : Nat
  /-- The jumps that wait for their labels, the first one first. -/
  waiting : List (String × Nat)
  /-- Where labels were placed, the latest first. -/
  places : List (String × Nat)

/-- A step of a code generator. What it did to the machine stays done if it fails. -/
abbrev Assemble := EStateM AssemblyError Assembler

namespace Assembler

/-- A code generator at the start of a chunk. -/
def start (machine : Machine) (pins : List Handle) : Assembler :=
  { machine, pins, chunk := .empty, line := 1, waiting := [], places := [] }

/-- The handles that are kept alive besides those of the machine. -/
def roots (a : Assembler) : List Handle := Object.chunkReferences a.chunk ++ a.pins

/-- The value of a literal. A text is interned. -/
def literal (c : Literal) : Assemble Value :=
  match c with
  | .value v => pure v
  | .text s =>
    modifyGet fun a =>
      let (h, machine) := a.machine.intern s a.roots
      (.object h, { a with machine })

/-- Write to the chunk. If it refuses, the chunk is given up. -/
def write {α : Type} (f : Chunk Value → (line : Nat) → Except ChunkError (α × Chunk Value)) :
    Assemble α
  | ⟨machine, pins, chunk, line, waiting, places⟩ =>
    match f chunk line with
    | .ok (result, chunk) => .ok result ⟨machine, pins, chunk, line, waiting, places⟩
    | .error e => .error (.chunk e) ⟨machine, pins, .empty, line, waiting, places⟩

/-- Append bytes to the code. -/
def bytes (bs : List UInt8) : Assemble Unit := write fun c line => .ok ((), c.writeAll bs line)

/-- The bytes of an operand; a constant is added to the pool. -/
def argument : Argument → Assemble (List UInt8)
  | .bytes bs => pure bs
  | .constant c => do
    let v ← literal c
    let index ← write fun chunk _ => .ok (chunk.addConstant v)
    return [UInt8.ofNat index]

/-- Let the jumps that wait for a label lead to the end of the code, and remember the place. -/
def place (name : String) : Assemble Unit := do
  let (ready, waiting) := (← get).waiting.partition (·.1 == name)
  ready.forM fun (_, offset) => write fun c _ => (c.patchJump offset).map ((), ·)
  modify fun a => { a with waiting, places := (name, a.chunk.size) :: a.places }

mutual

/-- Write an item. -/
def item : Item → Assemble Unit
  | .line n => modify fun a => { a with line := n }
  | .load c => do
    let v ← literal c
    discard (write fun chunk line => chunk.loadConstant v line)
  | .constant c => do
    let v ← literal c
    discard (write fun chunk _ => .ok (chunk.addConstant v))
  | .loadIndex index => write fun c line => (c.loadIndex index line).map ((), ·)
  | .bytes bs => bytes bs
  | .times count list => count.forM fun _ _ => items list
  | .label name => place name
  | .jumpTo op label => do
    let offset ← write fun c line => .ok (c.emitJump op line)
    modify fun a => { a with waiting := a.waiting ++ [(label, offset)] }
  | .loopTo label => do
    match (← get).places.lookup label with
    | some start => write fun c line => (c.emitLoop start line).map ((), ·)
    | none => throw (.unknownLabel label)
  | .jumpBy op distance => bytes (op.byte :: Chunk.bigEndian 2 distance)
  | .emit op arguments => do
    let operands ← arguments.mapM argument
    bytes (op.byte :: operands.flatten)

/-- Write items one after the other. -/
def items : List Item → Assemble Unit
  | [] => pure ()
  | first :: rest => do
    item first
    items rest

end

/-- The chunk of a list of items. -/
def chunkOf (code : List Item) : Assemble (Chunk Value) := do
  items code
  return (← get).chunk

/-- Assemble a function. Its name is interned while the chunk is kept alive, and the function is
allocated while the pins are. -/
def function (name : Option String) (arity captureCount : Nat) (code : List Item) :
    Assemble Handle := do
  let chunk ← chunkOf code
  let name ← name.mapM fun text => modifyGet fun a =>
    let (h, machine) := a.machine.intern text a.roots
    (h, { a with machine })
  modifyGet fun a =>
    let (h, machine) := a.machine.allocate (.function ⟨name, arity, captureCount, chunk⟩) a.pins
    (h, { a with machine })

/-- Assemble a script, which is to run at once. The pins are not kept alive any more when it is
allocated: what the script needs is among its constants. -/
def script (code : List Item) : Assemble Handle := do
  let chunk ← chunkOf code
  modifyGet fun a =>
    let (h, machine) := a.machine.allocate (.function (.script chunk)) []
    (h, { a with machine })

/-- Let a code generator work on a machine. -/
def run {α : Type} (machine : Machine) (pins : List Handle) (action : Assemble α) :
    Except AssemblyError α × Machine :=
  match EStateM.run action (start machine pins) with
  | .ok result a => (.ok result, a.machine)
  | .error e a => (.error e, a.machine)

end Assembler

end ScriptMachine
