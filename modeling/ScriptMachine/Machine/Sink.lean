/-
# Where printing goes

The bytes that scripts have printed, with an optional limit. A text that is
too long for the room that is left is written as far as it fits, and the write
fails.
-/

namespace ScriptMachine

/-- The printed bytes, and the number of bytes that there is still room for. -/
structure Sink where
  written : ByteArray
  room : Option Nat

namespace Sink

/-- A sink for at most this many bytes, or for any number of them. -/
def withLimit (limit : Option Nat) : Sink := ⟨.empty, limit⟩

instance : Inhabited Sink := ⟨withLimit none⟩

/-- Why a write fails. -/
def fullMessage : String := "sink full"

/-- Write a text, as far as it fits, and tell whether it did. -/
def write (sink : Sink) (text : String) : Bool × Sink :=
  let bytes := text.toUTF8
  match sink.room with
  | none => (true, { sink with written := sink.written ++ bytes })
  | some room =>
    if bytes.size ≤ room then (true, ⟨sink.written ++ bytes, some (room - bytes.size)⟩)
    else (false, ⟨sink.written ++ bytes.extract 0 room, some 0⟩)

/-- Take the written bytes out of the sink. -/
def drain (sink : Sink) : ByteArray × Sink := (sink.written, { sink with written := .empty })

/-- Printed bytes as a text. A character that the limit has cut off is shown as one replacement
character; its bytes are at most three. -/
def decode (bytes : ByteArray) : String :=
  let whole := (List.range 4).findSome? fun cut =>
    (String.fromUTF8? (bytes.extract 0 (bytes.size - cut))).map fun text =>
      if cut = 0 then text else text.push '\uFFFD'
  whole.getD ""

end Sink

end ScriptMachine
