/-
# The program
-/

import ScriptMachine.CommandLine

/-- Run the command line and write what it answers. -/
def main (arguments : List String) : IO UInt32 := do
  let t := ScriptMachine.CommandLine.execute arguments
  (← IO.getStdout).putStr t.stdout
  (← IO.getStderr).putStr t.stderr
  return UInt32.ofNat t.code
