/-
# Objects

The objects that live in the heap. An object refers to others by their handles
alone. `Object.references` lists them all: a collection keeps what can be
reached along them. `Object.extraSize` is what an object is charged beyond the
fixed size of every object.
-/

import ScriptMachine.Bytecode.Chunk
import ScriptMachine.Table.Basic
import ScriptMachine.Text.Hash

namespace ScriptMachine

/-- A text with its hash, computed once. -/
structure HashedText where
  text : String
  hash : UInt64 := Hash.ofText text
  hash_eq : hash = Hash.ofText text := by rfl

/-- A function of a script. -/
structure Function where
  /-- The string that names it; a script has no name. -/
  name : Option Handle
  arity : Nat
  /-- How many variables a closure of it captures. -/
  captureCount : Nat
  chunk : Chunk Value

/-- The function that runs a chunk as a script. -/
def Function.script (chunk : Chunk Value) : Function := ⟨none, 0, 0, chunk⟩

/-- A captured variable. -/
inductive Upvalue
  /-- The variable still lives in this slot of the stack. -/
  | opened (slot : Nat)
  /-- The variable has left the stack and lives here. -/
  | closed (value : Value)
  deriving DecidableEq, Repr

/-- A function that the host provides. -/
structure Native where
  name : String
  /-- The result, from the seconds that the machine has been up and the arguments. -/
  apply : Number → Array Value → Value

/-- An object of the heap. -/
inductive Object
  | string (s : HashedText)
  | function (f : Function)
  /-- A function with its captured variables, and the places reserved for these. -/
  | closure (function : Handle) (upvalues : Array Handle) (reserved : Nat)
  | upvalue (u : Upvalue)
  | cls (name : Handle) (methods : Table)
  | inst (cls : Handle) (fields : Table)
  | bound (receiver : Value) (method : Handle)
  | native (n : Native)

/-- The kinds of objects. -/
inductive Kind
  | string
  | function
  | closure
  | upvalue
  | cls
  | inst
  | bound
  | native
  deriving DecidableEq, Repr

/-- The name of a kind in the log of the heap. -/
def Kind.name : Kind → String
  | string => "string"
  | function => "function"
  | closure => "closure"
  | upvalue => "upvalue"
  | cls => "class"
  | inst => "instance"
  | bound => "bound method"
  | native => "native"

namespace Object

def kind : Object → Kind
  | string _ => .string
  | function _ => .function
  | closure _ _ _ => .closure
  | upvalue _ => .upvalue
  | cls _ _ => .cls
  | inst _ _ => .inst
  | bound _ _ => .bound
  | native _ => .native

/-- The bytes that every object is charged. -/
def headerSize : Nat := 112

/-- The bytes that an object is charged beyond the header: those of a text, five for each byte of
code and its line, sixteen for each constant, eight for each place of a captured variable, and
those of the slots of a table. -/
def extraSize : Object → Nat
  | string s => s.text.utf8ByteSize
  | function f => 5 * f.chunk.size + 16 * f.chunk.constants.size
  | closure _ _ reserved => 8 * reserved
  | cls _ methods => methods.footprint
  | inst _ fields => fields.footprint
  | upvalue _ | bound _ _ | native _ => 0

/-- The bytes that an object is charged. -/
def size (o : Object) : Nat := headerSize + o.extraSize

/-- The places that a list of captured variables takes if it grows one by one: none, or four,
doubled until all have room. A host that makes a closure by itself fills it in this way. -/
def grownPlaces (count : Nat) : Nat :=
  if count = 0 then 0 else max 4 (Nat.pow 2 (Nat.log2 (2 * count - 1)))

/-- The handles that a table refers to. -/
def tableReferences (t : Table) : List Handle :=
  t.entries.flatMap fun (key, value) => key.handle :: value.handle?.toList

/-- The handles among the constants of a chunk. -/
def chunkReferences (c : Chunk Value) : List Handle := c.constants.toList.filterMap Value.handle?

/-- The handles that an object refers to. -/
def references : Object → List Handle
  | string _ | native _ | upvalue (.opened _) => []
  | function f => f.name.toList ++ chunkReferences f.chunk
  | closure f upvalues _ => f :: upvalues.toList
  | upvalue (.closed value) => value.handle?.toList
  | cls name methods => name :: tableReferences methods
  | inst c fields => c :: tableReferences fields
  | bound receiver method => receiver.handle?.toList ++ [method]

end Object

end ScriptMachine
