/-
# Host functions

The function that every machine provides, and a few more to provide to
scripts.
-/

import ScriptMachine.Object

namespace ScriptMachine

namespace Native

/-- The seconds that the machine has been up. -/
def clock : Native := ⟨"clock", fun uptime _ => .number uptime⟩

/-- The sum of the arguments that are numbers, from the left, starting at zero. -/
def sum (name : String) : Native :=
  ⟨name, fun _ arguments =>
    .number (arguments.foldl (fun
      | total, .number n => total + n
      | total, _ => total) .zero)⟩

/-- The number of arguments. -/
def count (name : String) : Native := ⟨name, fun _ arguments => .number (.ofNat arguments.size)⟩

/-- The last argument, or nil. -/
def last (name : String) : Native := ⟨name, fun _ arguments => arguments.back?.getD .nil⟩

end Native

end ScriptMachine
