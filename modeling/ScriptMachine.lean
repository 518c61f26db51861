import ScriptMachine.Assembly
import ScriptMachine.Main
import ScriptMachine.Proofs.Heap.Marking
import ScriptMachine.Proofs.Heap.Collection
import ScriptMachine.Proofs.Table.Probing
import ScriptMachine.Proofs.Table.Lawful
import ScriptMachine.Proofs.Heap.Interning
import ScriptMachine.Proofs.Heap.Soundness
import ScriptMachine.Proofs.Heap.Names
import ScriptMachine.Proofs.Heap.Rendering
import ScriptMachine.Proofs.Heap.Dating
import ScriptMachine.Proofs.Machine.Soundness
import ScriptMachine.Proofs.Machine.Actions
import ScriptMachine.Proofs.Machine.Instructions
import ScriptMachine.Proofs.Machine.Reachable
import ScriptMachine.Proofs.Machine.Returning
import ScriptMachine.Proofs.Correspondence.Heaps
import ScriptMachine.Proofs.Correspondence.Display
import ScriptMachine.Proofs.Correspondence.Machines
import ScriptMachine.Proofs.Correspondence.Actions
import ScriptMachine.Proofs.Correspondence.Instructions
import ScriptMachine.Proofs.Correspondence.Runs
import ScriptMachine.Proofs.Table.Maps
import ScriptMachine.Proofs.Table.Slots
import ScriptMachine.Proofs.Table.Searching
import ScriptMachine.Proofs.Table.Ending
import ScriptMachine.Proofs.Heap.Strings
import ScriptMachine.Proofs.Heap.Charges
import ScriptMachine.Proofs.Heap.Accounting
import ScriptMachine.Proofs.Heap.Worklist
import ScriptMachine.Proofs.Number.Rounding
import ScriptMachine.Proofs.Number.Digits
import ScriptMachine.Proofs.Number.Spacing
import ScriptMachine.Proofs.Number.Numerals
import ScriptMachine.Proofs.Number.Texts
import ScriptMachine.Proofs.Machine.Changes
import ScriptMachine.Proofs.Machine.Safety
import ScriptMachine.Proofs.Machine.Handing
import ScriptMachine.Proofs.Machine.Effects
import ScriptMachine.Proofs.Machine.Variables
import ScriptMachine.Proofs.Machine.Tracking
import ScriptMachine.Proofs.Machine.Sharing
import ScriptMachine.Proofs.Machine.Occurring
import ScriptMachine.Proofs.Machine.Steady
import ScriptMachine.Proofs.Machine.Failing
import ScriptMachine.Proofs.Machine.Resting
import ScriptMachine.Proofs.Machine.Isolation
import ScriptMachine.Proofs.Bytecode.Reading
import ScriptMachine.Proofs.Bytecode.Writing
import ScriptMachine.Proofs.Bytecode.Boundaries
import ScriptMachine.Proofs.Machine.Fetching
import ScriptMachine.Proofs.Machine.Charging
import ScriptMachine.Proofs.Machine.Globals
import ScriptMachine.Proofs.Machine.Dispatching
import ScriptMachine.Proofs.Machine.Properties
import ScriptMachine.Proofs.Machine.Construction
import ScriptMachine.Proofs.Machine.Fusing
import ScriptMachine.Proofs.Machine.Jumping
import ScriptMachine.Proofs.Machine.Computing
import ScriptMachine.Proofs.Machine.Backtraces
import ScriptMachine.Proofs.Machine.Joining
import ScriptMachine.Proofs.Machine.Passing
import ScriptMachine.Proofs.Machine.Rendering
