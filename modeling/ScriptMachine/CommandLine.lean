/-
# The command line

The command line runs demonstrations on one machine, each an arithmetic
expression: all of them, or the one that is asked for. It answers with what
goes to the standard output, what goes to the standard error and an exit code,
so the program around it only has to write them.
-/

import ScriptMachine.CommandLine.Options
import ScriptMachine.Expression
import ScriptMachine.Machine.Run

namespace ScriptMachine

namespace CommandLine

/-- An expression with the text and the line that it is shown with. -/
structure Demonstration where
  name : String
  line : Nat
  expression : Expression

private def literal (x : Float) : Expression := .literal (.ofFloat x)

/-- The demonstrations, in the order of their numbers. -/
def demonstrations : List Demonstration := [
  ⟨"-((1.2 + 3.4) / 5.6)", 1,
    .negate (.binary .divide (.binary .add (literal 1.2) (literal 3.4)) (literal 5.6))⟩,
  ⟨"1 * 2 + 3", 2, .binary .add (.binary .multiply (literal 1) (literal 2)) (literal 3)⟩,
  ⟨"1 + 2 * 3", 3, .binary .add (literal 1) (.binary .multiply (literal 2) (literal 3))⟩,
  ⟨"3 - 2 - 1", 4, .binary .subtract (.binary .subtract (literal 3) (literal 2)) (literal 1)⟩,
  ⟨"1 + 2 * 3 - 4 / -5", 5,
    .binary .subtract
      (.binary .add (literal 1) (.binary .multiply (literal 2) (literal 3)))
      (.binary .divide (literal 4) (.negate (literal 5)))⟩]

/-! ## Running -/

/-- What a program writes, and how it exits. -/
structure Transcript where
  code : Nat := 0
  stdout : String := ""
  stderr : String := ""
  deriving DecidableEq, Repr

/-- Write a line to the standard error. -/
def Transcript.complain (t : Transcript) (line : String) : Transcript :=
  { t with stderr := t.stderr ++ line ++ "\n" }

/-- Run a demonstration. Its code has no jumps, so its size bounds the steps. -/
def demonstrate (disassemble : Bool) (state : Machine × Transcript) (d : Demonstration) :
    Machine × Transcript :=
  let (m, t) := state
  match d.expression.assemble d.line with
  | .error e => (m, t.complain e.message)
  | .ok chunk =>
    let listing := if disassemble then Listing.chunk m.heap.constantFormat chunk d.name else ""
    let t := { t with stdout := t.stdout ++ listing }
    match m.runChunk chunk.size chunk with
    | (.value v, m) =>
      (m, { t with stdout := t.stdout ++ s!"{d.name} = {m.heap.display v}\n" })
    | (.runtimeError e, m) => (m, t.complain e.text)
    | (_, m) => (m, t)

/-- The demonstrations that are asked for. -/
def selected (only : Option Nat) : Except String (List Demonstration) :=
  match only with
  | none => .ok demonstrations
  | some n =>
    match if n = 0 then none else demonstrations[n - 1]? with
    | some d => .ok [d]
    | none => .error s!"Error: no demo chunk {n}; there are {demonstrations.length}"

/-- Run the program with its arguments. -/
def execute (arguments : List String) : Transcript :=
  match readOptions arguments with
  | .error e => { code := 2, stderr := e.message ++ "\n" }
  | .ok o =>
    match selected o.only with
    | .error message => { code := 1, stderr := message ++ "\n" }
    | .ok chosen =>
      let m := Machine.start { diagnostics := o.diagnostics } (.withLimit none) .zero
      (chosen.foldl (demonstrate o.disassemble) (m, {})).2

end CommandLine

end ScriptMachine
