/-
# Columns of text

Texts brought to a width with blanks or zeros, for listings.
-/

namespace ScriptMachine

namespace Layout

/-- Blanks before the text up to the width. -/
def alignRight (width : Nat) (text : String) : String :=
  String.ofList (text.toList.leftpad width ' ')

/-- Blanks after the text up to the width. -/
def alignLeft (width : Nat) (text : String) : String :=
  String.ofList (text.toList.rightpad width ' ')

/-- A natural number in at least four digits. -/
def fourDigits (n : Nat) : String := String.ofList ((Nat.toDigits 10 n).leftpad 4 '0')

end Layout

end ScriptMachine
