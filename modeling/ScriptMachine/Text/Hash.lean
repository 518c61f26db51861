/-
# Hash of a text

The 64-bit FNV-1a hash of the UTF-8 bytes of a text: from a fixed start, each
byte is mixed in by exclusive or and a multiplication that wraps.
-/

namespace ScriptMachine

namespace Hash

/-- The hash of the empty text. -/
def start : UInt64 := 0xcbf29ce484222325

/-- Mix one byte into a hash. -/
def mix (hash : UInt64) (byte : UInt8) : UInt64 := (hash ^^^ byte.toUInt64) * 0x100000001b3

/-- The hash of a text. -/
def ofText (text : String) : UInt64 := text.toUTF8.data.foldl mix start

end Hash

end ScriptMachine
