/-
# Errors of a run

What can go wrong when scripts run, as causes, with their wordings. A
`RuntimeError` is the fault of the script: it carries the frames that were
active, the innermost first. A `Fault` would be the fault of the machine: an
object that it holds on to is gone.
-/

import ScriptMachine.Bytecode.Reader

namespace ScriptMachine

/-- How byte code can fail to make sense. -/
inductive Malformed
  | fetch (e : FetchError)
  | truncatedCaptures
  | stackUnderflow
  | missingArguments
  | constantOutOfRange (index : Nat)
  | constantNotString (index : Nat)
  | constantNotFunction (index : Nat)
  | localOutOfRange (slot : Nat)
  | upvalueOutOfRange (index : Nat)
  | danglingUpvalue
  | loopBeforeStart
  | initializerNotClosure
  | inheritIntoNonClass
  | methodOutsideClass
  deriving DecidableEq, Repr

namespace Malformed

/-- The wording of the flaw. -/
def message : Malformed → String
  | fetch .pastEnd => "ran past the end of the chunk"
  | fetch (.unknownOpcode byte) => s!"unknown opcode {byte}"
  | fetch (.truncatedOperand op) => s!"truncated operand of {op.name}"
  | truncatedCaptures => "truncated closure captures"
  | stackUnderflow => "operand stack underflow"
  | missingArguments => "call with missing arguments"
  | constantOutOfRange index => s!"constant {index} out of range"
  | constantNotString index => s!"constant {index} is not a string"
  | constantNotFunction index => s!"constant {index} is not a function"
  | localOutOfRange slot => s!"local slot {slot} out of range"
  | upvalueOutOfRange index => s!"upvalue {index} out of range"
  | danglingUpvalue => "dangling upvalue"
  | loopBeforeStart => "loop jumps before the chunk start"
  | initializerNotClosure => "initializer is not a closure"
  | inheritIntoNonClass => "inheriting into a non-class"
  | methodOutsideClass => "method outside a class body"

end Malformed

/-- What can go wrong in an instruction. -/
inductive ErrorKind
  | operandMustBeNumber
  | operandsMustBeNumbers
  | operandsMustBeNumbersOrStrings
  | undefinedVariable (name : String)
  | undefinedProperty (name : String)
  | arityMismatch (expected got : Nat)
  | notCallable
  /-- Calls are nested too deeply. -/
  | stackOverflow
  /-- There are too many values on the stack. -/
  | operandStackOverflow
  | onlyInstancesHaveProperties
  | onlyInstancesHaveFields
  | onlyInstancesHaveMethods
  | superclassMustBeClass
  | malformed (flaw : Malformed)
  /-- Printing failed. -/
  | output (reason : String)
  deriving DecidableEq, Repr

namespace ErrorKind

/-- The wording of an error. -/
def message : ErrorKind → String
  | operandMustBeNumber => "Operand must be a number."
  | operandsMustBeNumbers => "Operands must be numbers."
  | operandsMustBeNumbersOrStrings => "Operands must be two numbers or two strings."
  | undefinedVariable name => s!"Undefined variable '{name}'."
  | undefinedProperty name => s!"Undefined property '{name}'."
  | arityMismatch expected got => s!"Expected {expected} arguments but got {got}."
  | notCallable => "Can only call functions and classes."
  | stackOverflow => "Stack overflow."
  | operandStackOverflow => "Operand stack overflow."
  | onlyInstancesHaveProperties => "Only instances have properties."
  | onlyInstancesHaveFields => "Only instances have fields."
  | onlyInstancesHaveMethods => "Only instances have methods."
  | superclassMustBeClass => "Superclass must be a class."
  | malformed flaw => s!"Malformed bytecode: {flaw.message}."
  | output reason => s!"Failed to write output: {reason}."

end ErrorKind

/-- A frame in the backtrace of an error. -/
structure BacktraceEntry where
  line : Nat
  /-- The name of the function; a script has none. -/
  function : Option String
  deriving DecidableEq, Repr

/-- A line of a backtrace. -/
def BacktraceEntry.text (e : BacktraceEntry) : String :=
  match e.function with
  | some name => s!"[line {e.line}] in {name}()"
  | none => s!"[line {e.line}] in script"

/-- An error with the frames that were active, the innermost first. -/
structure RuntimeError where
  kind : ErrorKind
  backtrace : List BacktraceEntry
  deriving DecidableEq, Repr

/-- The message of an error, and a line for each frame. -/
def RuntimeError.text (e : RuntimeError) : String :=
  "\n".intercalate (e.kind.message :: e.backtrace.map BacktraceEntry.text)

/-- One complaint of a compiler. -/
structure Complaint where
  line : Nat
  message : String
  deriving DecidableEq, Repr

/-- All complaints of a compiler about a source text. -/
structure CompileError where
  complaints : List Complaint
  deriving DecidableEq, Repr

/-- A line for each complaint. -/
def CompileError.text (e : CompileError) : String :=
  "\n".intercalate (e.complaints.map fun c => s!"[line {c.line}] Error: {c.message}")

/-- A broken promise of the machine to itself. -/
inductive Fault
  /-- An instruction is to run outside any call. -/
  | noFrame
  /-- The function of a frame or of a closure is gone. -/
  | lostFunction
  /-- An object that the machine holds on to is gone. -/
  | lostObject
  /-- A slot below the top of the stack is not there. -/
  | lostSlot
  deriving DecidableEq, Repr

end ScriptMachine
