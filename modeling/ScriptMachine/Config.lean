/-
# Settings of a machine
-/

namespace ScriptMachine

/-- What is recorded or forced for diagnosis. -/
structure Diagnostics where
  /-- Record every instruction with the stack before it. -/
  traceExecution : Bool := false
  /-- Record what the heap does. -/
  logCollections : Bool := false
  /-- Collect before every allocation. -/
  stressCollections : Bool := false
  deriving DecidableEq, Repr, Inhabited

/-- The settings of a machine. -/
structure Config where
  /-- The greatest depth of calls. -/
  framesMax : Nat := 64
  /-- The stack slots that each frame adds to the limit of the stack. -/
  slotsPerFrame : Nat := 256
  /-- The bytes in use that the first collection waits for. -/
  firstThreshold : Nat := 1024 * 1024
  /-- The next collection waits for this many times the bytes that are left after a collection. -/
  growth : Nat := 2
  diagnostics : Diagnostics := {}
  deriving DecidableEq, Repr, Inhabited

/-- The greatest number of values on the stack. -/
def Config.stackLimit (c : Config) : Nat := c.framesMax * c.slotsPerFrame

end ScriptMachine
