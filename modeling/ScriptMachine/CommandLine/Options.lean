/-
# Options of the command line

An option is written in its long form, `--chunk`, or by its letter, `-c`. The
letters of several options may share one argument. The value of an option
stands behind it in the same argument, with or without an equals sign between
a letter and the value, or it is the next argument, which then must not look
like an option. Two dashes alone end the options, and nothing may follow them.
No option may be given twice.

## Main definitions

* `CommandLine.tokens` — the arguments taken apart
* `CommandLine.settings` — the settings that they make, each option with its value
* `CommandLine.readOptions` — all of it, from the arguments to the options
-/

import ScriptMachine.Config

namespace ScriptMachine

namespace CommandLine

/-- What the command line asks for. -/
structure Options where
  /-- Show the listing of each demonstration. -/
  disassemble : Bool := false
  diagnostics : Diagnostics := {}
  /-- The number of the only demonstration to run, from one on. -/
  only : Option Nat := none
  deriving DecidableEq, Repr

/-- What one option asks for. -/
inductive Setting
  | disassemble
  | traceExecution
  | logCollections
  | stressCollections
  /-- Run the demonstration with this number alone. -/
  | only (number : Nat)
  deriving DecidableEq, Repr

/-- Why arguments are refused. -/
inductive UsageError
  | unexpected (argument : String)
  /-- The number of a demonstration is not there. -/
  | missingNumber
  | invalidNumber (text : String)
  | repeated (option : String)
  deriving DecidableEq, Repr

/-- The wording of an error. -/
def UsageError.message : UsageError → String
  | unexpected argument => s!"error: unexpected argument '{argument}'"
  | missingNumber => "error: a value is required for '--chunk <CHUNK>'"
  | invalidNumber text => s!"error: invalid value '{text}' for '--chunk <CHUNK>'"
  | repeated option => s!"error: the argument '{option}' cannot be used multiple times"

/-- The long form of the option that makes a setting. -/
def Setting.option : Setting → String
  | disassemble => "--disassemble"
  | traceExecution => "--trace"
  | logCollections => "--log-gc"
  | stressCollections => "--stress-gc"
  | only _ => "--chunk"

/-- Make a setting. -/
def Options.set (o : Options) : Setting → Options
  | .disassemble => { o with disassemble := true }
  | .traceExecution => { o with diagnostics := { o.diagnostics with traceExecution := true } }
  | .logCollections => { o with diagnostics := { o.diagnostics with logCollections := true } }
  | .stressCollections => { o with diagnostics := { o.diagnostics with stressCollections := true } }
  | .only number => { o with only := some number }

/-! ## Arguments taken apart -/

/-- A part of the arguments. -/
inductive Token
  /-- An option without a value. -/
  | flag (s : Setting)
  /-- The option for the number of a demonstration, with its value. -/
  | only (value : String)
  /-- The same option, whose value is the next argument. -/
  | onlyNext
  /-- An argument that is no option. -/
  | word (text : String)
  deriving DecidableEq, Repr

/-- The option without a value that has this name in the long form. -/
def flag? (name : String) : Option Setting :=
  [.disassemble, .traceExecution, .logCollections, .stressCollections].find? fun s =>
    s.option == "--" ++ name

/-- An option in the long form. Only an option that takes a value may be followed by one. -/
def longOption (argument : String) (body : List Char) : Except UsageError Token :=
  let (name, rest) := body.span (· != '=')
  match flag? (String.ofList name), String.ofList name == "chunk", rest with
  | some s, _, [] => .ok (.flag s)
  | none, true, [] => .ok .onlyNext
  | none, true, _ :: value => .ok (.only (String.ofList value))
  | _, _, _ => .error (.unexpected argument)

/-- Options by their letters. The letter of an option with a value is the last one: what follows it
is the value. -/
def letterOptions (argument : String) : List Char → Except UsageError (List Token)
  | [] => .ok []
  | 'd' :: rest => (letterOptions argument rest).map (.flag .disassemble :: ·)
  | ['c'] => .ok [.onlyNext]
  | 'c' :: '=' :: value | 'c' :: value => .ok [.only (String.ofList value)]
  | _ => .error (.unexpected argument)

/-- The parts of one argument. A dash alone is no option. -/
def argumentTokens (argument : String) : Except UsageError (List Token) :=
  match argument.toList with
  | '-' :: '-' :: body => (longOption argument body).map ([·])
  | '-' :: letter :: letters => letterOptions argument (letter :: letters)
  | _ => .ok [.word argument]

/-- The parts of all arguments. -/
def tokens : List String → Except UsageError (List Token)
  | [] | ["--"] => .ok []
  | "--" :: argument :: _ => .error (.unexpected argument)
  | argument :: rest => do return (← argumentTokens argument) ++ (← tokens rest)

/-! ## Settings -/

/-- A natural number below two to the 64 in decimal digits, perhaps after a plus sign. -/
def number? (text : String) : Option Nat :=
  let digits :=
    match text.toList with
    | '+' :: digits | digits => digits
  if digits.isEmpty || !digits.all Char.isDigit then none
  else
    let n := digits.foldl (fun n c => n * 10 + (c.toNat - '0'.toNat)) 0
    if n < Nat.pow 2 64 then some n else none

/-- The setting that the value of the option for a number makes. -/
def onlySetting (value : String) : Except UsageError Setting :=
  match number? value with
  | some number => .ok (.only number)
  | none => .error (.invalidNumber value)

/-- The settings in the order of their options. -/
def settings : List Token → Except UsageError (List Setting)
  | [] => .ok []
  | .flag s :: rest => do return s :: (← settings rest)
  | .only value :: rest | .onlyNext :: .word value :: rest => do
    return (← onlySetting value) :: (← settings rest)
  | .onlyNext :: _ => .error .missingNumber
  | .word text :: _ => .error (.unexpected text)

/-- The first text of a list that comes again. -/
def repeated? : List String → Option String
  | [] => none
  | text :: rest => if rest.contains text then some text else repeated? rest

/-- The options that the arguments ask for. -/
def readOptions (arguments : List String) : Except UsageError Options := do
  let settings ← settings (← tokens arguments)
  match repeated? (settings.map Setting.option) with
  | some option => .error (.repeated option)
  | none => return settings.foldl Options.set {}

end CommandLine

end ScriptMachine
