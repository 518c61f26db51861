/-
# Text of values

The text that printing writes for a value. A bound method shows its method, so
the text may be several handles away; the number of live objects bounds how
far, because bound methods never lead around in a circle.
-/

import ScriptMachine.Bytecode.Listing
import ScriptMachine.Heap.Basic
import ScriptMachine.Number.Text

namespace ScriptMachine

namespace Heap

/-- The name of a function, if its name is a live string. -/
def functionName? (heap : Heap) (f : Function) : Option String := f.name.bind heap.text?

/-- The text of a function. One without a name is the script. -/
def functionText (heap : Heap) (f : Function) : String :=
  match heap.functionName? f with
  | some name => s!"<fn {name}>"
  | none => "<script>"

/-- The name of a class, or a question mark. -/
def className (heap : Heap) (name : Handle) : String := (heap.text? name).getD "?"

/-- The text of an object that is not a bound method. -/
def objectText (heap : Heap) : Object → String
  | .string s => s.text
  | .function f => heap.functionText f
  | .closure f _ _ =>
    match heap.function? f with
    | some f => heap.functionText f
    | none => "<fn ?>"
  | .upvalue _ => "upvalue"
  | .cls name _ => heap.className name
  | .inst c _ =>
    match heap.get? c with
    | some (.cls name _) => s!"{heap.className name} instance"
    | _ => "? instance"
  | .bound _ _ => "bound method"
  | .native _ => "<native fn>"

/-- The text of the object behind a handle, if at most `bound` bound methods lead to it. Handles
have no text here: where the object has been freed, the mark `<freed>` stands without the handle
that a program would show in it. -/
def textWithin (heap : Heap) (bound : Nat) (h : Handle) : Option String :=
  match heap.get? h with
  | none => some "<freed>"
  | some (.bound _ method) =>
    match bound with
    | 0 => none
    | bound + 1 => heap.textWithin bound method
  | some object => some (heap.objectText object)

/-- The text of a value. The last text is never shown: bound methods are followed to an end within
the bound unless a host makes up handles. -/
def display (heap : Heap) : Value → String
  | .nil => "nil"
  | .bool b => if b then "true" else "false"
  | .number n => n.shown
  | .object h => (heap.textWithin heap.size h).getD "bound method"

/-- Listings of functions show constants with their texts. -/
def constantFormat (heap : Heap) : ConstantFormat Value where
  text := heap.display
  captureCount v := ((v.handle?.bind heap.function?).map (·.captureCount)).getD 0

/-- The listing of a live function, under its name. -/
def listing? (heap : Heap) (h : Handle) : Option String := do
  let f ← heap.function? h
  return Listing.chunk heap.constantFormat f.chunk ((heap.functionName? f).getD "script")

end Heap

end ScriptMachine
