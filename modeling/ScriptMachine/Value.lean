/-
# Values

A value is nil, a boolean, a number, or a handle of an object in the heap. A
handle is never given out twice, so two handles are equal exactly when they
name the same object, and values are compared without looking into the heap.
-/

import ScriptMachine.Number.Basic

namespace ScriptMachine

/-- The name of an object in the heap. -/
structure Handle where
  index : Nat
  deriving DecidableEq, Repr

/-- What scripts compute with. -/
inductive Value
  | nil
  | bool (b : Bool)
  | number (n : Number)
  | object (h : Handle)
  deriving DecidableEq, Repr

namespace Value

instance : Inhabited Value := ⟨.nil⟩

/-- Only nil and false are falsey; zero and the empty string are not. -/
def isFalsey : Value → Bool
  | nil | bool false => true
  | _ => false

/-- Equality of the scripts: numbers by IEEE 754, objects by their handles, and values of different
kinds never. -/
def equal : Value → Value → Bool
  | nil, nil => true
  | bool a, bool b => a == b
  | number a, number b => a.equal b
  | object a, object b => a == b
  | _, _ => false

/-- The handle of an object. -/
def handle? : Value → Option Handle
  | object h => some h
  | _ => none

end Value

end ScriptMachine
