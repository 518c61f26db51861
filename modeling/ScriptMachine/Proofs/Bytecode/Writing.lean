/-
# What is written is read back

A chunk is written by appending instructions, by adding constants, and by
patching jumps once their target is reached. The one who writes can keep an
account of this: the instructions in order with their operand values and their
lines, the offsets and the indices that were told, and the values that were
given. The bytes of the code are then those of the instructions in the account,
one after the other, whatever the order of the writes was. A patch changes the
bytes of one jump alone. So reading the code from its start gives the
instructions of the account again, and ends exactly at the end of the code.

## Main definitions

* `Entry`, `Account`: one instruction that was written, and all that was
  written.
* `Written`: the chunks and accounts that come about by writing.
* `Account.Describes`: the chunk holds what the account says.

## Main results

* `Written.describes`: every chunk that was written holds what its account
  says.
* `items?_eq`: reading it gives the items of the account.
* `Chunk.Writer.refused_loadConstant`, `Chunk.Writer.refused_loadIndex`: a load
  that is refused leaves the chunk as it is.
* `Written.reads_back`: what is written is read back.
-/

import ScriptMachine.Proofs.Bytecode.Reading

namespace ScriptMachine

open Chunk (Writer bigEndian shortIndexLimit indexLimit jumpLimit)

/-- The instruction is a jump: its one operand is a distance in two bytes. -/
def Opcode.IsJump (op : Opcode) : Prop := op.operands.map (·.kind.width) = [2]

instance (op : Opcode) : Decidable op.IsJump := inferInstanceAs (Decidable (_ = _))

/-! ## Accounts -/

/-- An instruction that was written, with the bytes of its captures and its line. -/
structure Entry where
  instruction : Instruction
  /-- The bytes of the captures; the first one of a pair tells where the variable is. -/
  pairs : List (UInt8 × UInt8)
  line : Nat
  deriving DecidableEq, Repr

namespace Entry

/-- The entry as it is read. -/
def item (e : Entry) : Chunk.Item := ⟨e.instruction, e.pairs.map Capture.ofPair⟩

/-- The number of bytes of an entry. -/
def size (e : Entry) : Nat := 1 + e.instruction.opcode.operandWidth + 2 * e.pairs.length

/-- The instruction that loads the constant at an index, in its short form if it has one. -/
def load (index line : Nat) : Entry :=
  ⟨⟨if index < shortIndexLimit then .constant else .longConstant, [index]⟩, [], line⟩

/-- The entry of a jump, now spanning the given number of bytes. -/
def spanning (distance : Nat) (e : Entry) : Entry :=
  { e with instruction := { e.instruction with operands := [distance] } }

/-- The bytes of an entry. -/
def bytes (e : Entry) : List UInt8 :=
  e.instruction.opcode.byte ::
    (Operand.bytes e.instruction.opcode.operands e.instruction.operands ++ Capture.bytes e.pairs)

/-- The operands fit in their bytes, and only closures have captures. -/
structure Fits (e : Entry) : Prop where
  operands : Operand.Fit e.instruction.opcode.operands e.instruction.operands
  captures : e.pairs ≠ [] → e.instruction.opcode = .closure

end Entry

/-- The number of bytes of entries. -/
def extent (entries : List Entry) : Nat := (entries.map Entry.size).sum

/-- What was written to a chunk, and what the one who wrote was told. -/
structure Account (V : Type) where
  /-- The instructions in order. -/
  entries : List Entry := []
  /-- The place of each load of a constant among the instructions, and the index told for it. -/
  loads : List (Nat × Nat) := []
  /-- The place of each jump to be patched, and the offset told for it. -/
  jumps : List (Nat × Nat) := []
  /-- The indices told for constants, and the values given for them. -/
  given : List (Nat × V) := []

namespace Account

variable {V : Type}

/-- An instruction was appended. -/
def wrote (a : Account V) (e : Entry) : Account V := { a with entries := a.entries ++ [e] }

/-- The load of a constant was appended. -/
def loaded (a : Account V) (index line : Nat) : Account V :=
  { a.wrote (.load index line) with loads := a.loads ++ [(a.entries.length, index)] }

/-- A jump was appended that leads nowhere yet. -/
def jumped (a : Account V) (op : Opcode) (offset line : Nat) : Account V :=
  { a.wrote ⟨⟨op, [jumpLimit]⟩, [], line⟩ with jumps := a.jumps ++ [(a.entries.length, offset)] }

/-- The jump at a place was made to lead to the present end: over all that was written after it. -/
def patched (a : Account V) (place : Nat) : Account V :=
  { a with entries := a.entries.modify place (.spanning (extent (a.entries.drop (place + 1)))) }

/-- A constant was added. -/
def gave (a : Account V) (index : Nat) (value : V) : Account V :=
  { a with given := a.given ++ [(index, value)] }

end Account

/-- What chunks come about by writing, with the accounts of it. -/
inductive Written {V : Type} [Inhabited V] : Chunk V → Account V → Prop
  /-- Nothing was written yet. -/
  | start : Written .empty {}
  /-- An instruction without operands. -/
  | plain {c : Chunk V} {a : Account V} (written : Written c a) (op : Opcode) (line : Nat)
      (none : op.operands = []) :
      Written (c.write op.byte line) (a.wrote ⟨⟨op, []⟩, [], line⟩)
  /-- An instruction with all its operand bytes, and with pairs of bytes for captures. -/
  | emit {c : Chunk V} {a : Account V} (written : Written c a) (op : Opcode)
      (args : List UInt8) (pairs : List (UInt8 × UInt8)) (line : Nat)
      (full : args.length = op.operandWidth) (captures : pairs ≠ [] → op = .closure) :
      Written (c.emit op (args ++ Capture.bytes pairs) line)
        (a.wrote ⟨⟨op, Operand.values op.operands args⟩, pairs, line⟩)
  /-- A constant with its load. -/
  | constant {c c' : Chunk V} {a : Account V} (written : Written c a) {value : V}
      {index line : Nat} (done : (Writer.loadConstant value line).run c = .ok index c') :
      Written c' ((a.gave index value).loaded index line)
  /-- The load of a constant by its index. -/
  | index {c c' : Chunk V} {a : Account V} (written : Written c a) {index line : Nat}
      (done : (Writer.loadIndex index line).run c = .ok () c') :
      Written c' (a.loaded index line)
  /-- A constant without a load. -/
  | add {c : Chunk V} {a : Account V} (written : Written c a) (value : V) :
      Written (c.addConstant value).2 (a.gave (c.addConstant value).1 value)
  /-- A jump that is to be patched. -/
  | jump {c : Chunk V} {a : Account V} (written : Written c a) (op : Opcode) (line : Nat)
      (jumps : op.IsJump) :
      Written (c.emitJump op line).2 (a.jumped op (c.emitJump op line).1 line)
  /-- A patch of a jump, by the offset that was told for it. -/
  | patch {c c' : Chunk V} {a : Account V} (written : Written c a) {place offset : Nat}
      (told : (place, offset) ∈ a.jumps) (done : (Writer.patchJump offset).run c = .ok () c') :
      Written c' (a.patched place)
  /-- A jump back to an offset. -/
  | loop {c c' : Chunk V} {a : Account V} (written : Written c a) {start line : Nat}
      (done : (Writer.emitLoop start line).run c = .ok () c') :
      Written c' (a.wrote ⟨⟨.loop, [extent a.entries + 3 - start]⟩, [], line⟩)

/-! ## Entries and their bytes -/

namespace Entry

/-- An entry has as many bytes as its size says. -/
theorem Fits.length_bytes {e : Entry} (fits : e.Fits) : e.bytes.length = e.size := by
  simp only [bytes, List.length_cons, List.length_append, Operand.length_bytes fits.operands,
    Capture.length_bytes, size, Opcode.operandWidth_eq_widths]
  omega

theorem size_pos (e : Entry) : 0 < e.size := by unfold size; omega

/-- Entries with as many bytes as their sizes say have as many together. -/
theorem length_flatMap_bytes {entries : List Entry} (fits : ∀ e ∈ entries, e.Fits) :
    (entries.flatMap bytes).length = extent entries := by
  rw [List.length_flatMap, extent]
  exact congrArg List.sum (List.map_congr_left fun e inside => (fits e inside).length_bytes)

/-- The load of a constant fits if the index is below the limit. -/
theorem fits_load {index : Nat} (below : index < indexLimit) (line : Nat) :
    (load index line).Fits := by
  refine ⟨?_, fun some => absurd rfl some⟩
  have bound : index < 256 ^ 3 := below
  by_cases short : index < shortIndexLimit
  · have small : index < 256 ^ 1 := Nat.lt_trans short (by decide)
    simpa [load, short, Opcode.operands, OperandKind.width] using small
  · simpa [load, short, Opcode.operands, OperandKind.width] using bound

/-- A load takes two bytes in its short form and four in its long one. -/
theorem size_load (index line : Nat) :
    (load index line).size = if index < shortIndexLimit then 2 else 4 := by
  unfold load size
  split <;> rfl

/-- The load of a constant is no jump. -/
theorem not_isJump_load (index line : Nat) : ¬(load index line).instruction.opcode.IsJump := by
  by_cases short : index < shortIndexLimit
  · simp only [load, short, if_true]
    decide
  · simp only [load, short, if_false]
    decide

section Jump

variable {e : Entry} (jumps : e.instruction.opcode.IsJump)
include jumps

/-- The operands of a jump are one operand of two bytes. -/
theorem operands_of_isJump :
    ∃ operand : Operand, e.instruction.opcode.operands = [operand] ∧ operand.kind.width = 2 := by
  obtain ⟨operand, found, wide⟩ := List.map_eq_singleton_iff.1 jumps
  exact ⟨operand, found, wide⟩

/-- A jump has no captures. -/
theorem Fits.pairs_of_isJump (fits : e.Fits) : e.pairs = [] := by
  by_contra some
  rw [fits.captures some] at jumps
  exact absurd jumps (by decide)

/-- A jump over a distance in two bytes fits. -/
theorem Fits.spanning (fits : e.Fits) {distance : Nat} (near : distance ≤ jumpLimit) :
    (e.spanning distance).Fits := by
  refine ⟨?_, fits.captures⟩
  obtain ⟨operand, found, wide⟩ := operands_of_isJump jumps
  have small : distance < 256 ^ operand.kind.width := by
    rw [wide]
    exact Nat.lt_of_le_of_lt near (by decide)
  simpa [Entry.spanning, found] using small

/-- The bytes of a jump are its opcode and the two bytes of its distance. -/
theorem Fits.bytes_spanning (fits : e.Fits) (distance : Nat) :
    (e.spanning distance).bytes =
      [e.instruction.opcode.byte, UInt8.ofNat (distance / 256), UInt8.ofNat distance] := by
  obtain ⟨operand, found, wide⟩ := operands_of_isJump jumps
  simp [bytes, Entry.spanning, found, wide, fits.pairs_of_isJump jumps, Operand.bytes, bigEndian,
    Capture.bytes]

/-- A jump that fits is a jump over some distance. -/
theorem Fits.eq_spanning (fits : e.Fits) : ∃ distance, e = e.spanning distance := by
  obtain ⟨operand, found, -⟩ := operands_of_isJump jumps
  have fit := fits.operands
  rw [found] at fit
  obtain ⟨distance, rest, -, none, same⟩ := List.forall₂_cons_left_iff.1 fit
  rw [List.forall₂_nil_left_iff.1 none] at same
  exact ⟨distance, by simp only [Entry.spanning, ← same]⟩

end Jump

@[simp] theorem size_spanning (e : Entry) (distance : Nat) :
    (e.spanning distance).size = e.size := rfl

end Entry

@[simp] theorem extent_append (entries others : List Entry) :
    extent (entries ++ others) = extent entries + extent others := by
  simp [extent]

@[simp] theorem extent_cons (e : Entry) (entries : List Entry) :
    extent (e :: entries) = e.size + extent entries := by
  simp [extent]

/-- There are no more entries than bytes. -/
theorem length_le_extent (entries : List Entry) : entries.length ≤ extent entries := by
  induction entries with
  | nil => exact Nat.zero_le _
  | cons e entries ih =>
    have := e.size_pos
    simp only [List.length_cons, extent_cons]
    omega

/-- A patch changes no sizes. -/
theorem extent_take_modify (entries : List Entry) (place distance n : Nat) :
    extent ((entries.modify place (.spanning distance)).take n) = extent (entries.take n) := by
  have sizes :
      (entries.modify place (.spanning distance)).map Entry.size = entries.map Entry.size := by
    refine List.ext_getElem? fun i => ?_
    rw [List.getElem?_map, List.getElem?_map, List.getElem?_modify]
    by_cases same : place = i
    · simp [same, Function.comp_def]
    · simp [same]
  simp only [extent, List.map_take, sizes]

/-! ## Writes that can be refused -/

namespace Chunk.Writer

variable {V : Type}

/-- The load of a constant is appended, unless its index is beyond the limit. -/
theorem run_loadIndex (index line : Nat) (c : Chunk V) :
    (loadIndex index line).run c =
      if index < indexLimit then .ok () (c.writeAll (Entry.load index line).bytes line)
      else .error .tooManyConstants c := by
  have inside : index < shortIndexLimit → index < indexLimit := fun short =>
    Nat.lt_trans short (by decide)
  by_cases short : index < shortIndexLimit
  · simp only [loadIndex, short, inside short, if_true, Entry.load, Entry.bytes]
    simp only [Operand.bytes, Opcode.operands, Capture.bytes, List.flatMap_nil, List.append_nil]
    rfl
  · by_cases below : index < indexLimit
    · simp only [loadIndex, short, below, if_true, if_false, Entry.load, Entry.bytes]
      simp only [Operand.bytes, Opcode.operands, Capture.bytes, List.flatMap_nil, List.append_nil]
      rfl
    · simp only [loadIndex, short, below, if_false]
      rfl

/-- A constant is added and its load is appended, unless the pool is full. -/
theorem run_loadConstant (value : V) (line : Nat) (c : Chunk V) :
    (loadConstant value line).run c =
      if c.constants.size < indexLimit then
        .ok c.constants.size
          ((c.addConstant value).2.writeAll (Entry.load c.constants.size line).bytes line)
      else .error .tooManyConstants c := by
  change (if indexLimit ≤ c.constants.size then _ else _ : Writer V Nat) c = _
  by_cases room : c.constants.size < indexLimit
  · have loaded : loadIndex c.constants.size line (c.addConstant value).2 = _ :=
      run_loadIndex c.constants.size line (c.addConstant value).2
    rw [if_pos room] at loaded
    rw [if_neg (Nat.not_le.2 room), if_pos room]
    change EStateM.bind (loadIndex c.constants.size line) _ (c.addConstant value).2 = _
    rw [EStateM.bind, loaded]
    rfl
  · rw [if_pos (Nat.not_lt.1 room), if_neg room]
    rfl

/-- A load that is refused leaves the chunk as it is. -/
theorem refused_loadIndex {index line : Nat} {c after : Chunk V} {reason : ChunkError}
    (refused : (loadIndex index line).run c = .error reason after) :
    reason = .tooManyConstants ∧ after = c := by
  rw [run_loadIndex] at refused
  split at refused
  · cases refused
  · obtain ⟨rfl, rfl⟩ := EStateM.Result.error.inj refused
    exact ⟨rfl, rfl⟩

/-- A constant that is refused leaves the chunk as it is. -/
theorem refused_loadConstant {value : V} {line : Nat} {c after : Chunk V} {reason : ChunkError}
    (refused : (loadConstant value line).run c = .error reason after) :
    reason = .tooManyConstants ∧ after = c := by
  rw [run_loadConstant] at refused
  split at refused
  · cases refused
  · obtain ⟨rfl, rfl⟩ := EStateM.Result.error.inj refused
    exact ⟨rfl, rfl⟩

/-- A jump is patched to lead over all bytes after its two, unless these are too many. -/
theorem run_patchJump (offset : Nat) (c : Chunk V) :
    (patchJump offset).run c =
      if c.size - offset - 2 ≤ jumpLimit then
        .ok () { c with
          code := (c.code.setIfInBounds offset
            (UInt8.ofNat ((c.size - offset - 2) / 256))).setIfInBounds (offset + 1)
              (UInt8.ofNat (c.size - offset - 2)) }
      else .error (.jumpTooLarge (c.size - offset - 2)) c := by
  change (if jumpLimit < c.size - offset - 2 then _ else _ : Writer V Unit) c = _
  by_cases near : c.size - offset - 2 ≤ jumpLimit
  · rw [if_neg (Nat.not_lt.2 near), if_pos near]
    rfl
  · rw [if_pos (Nat.lt_of_not_le near), if_neg near]
    rfl

/-- A jump back is appended, unless it would go too far. -/
theorem run_emitLoop (start line : Nat) (c : Chunk V) :
    (emitLoop start line).run c =
      if c.size + 3 - start ≤ jumpLimit then
        .ok () (c.emit .loop (bigEndian 2 (c.size + 3 - start)) line)
      else .error (.loopTooLarge (c.size + 3 - start)) c := by
  change (if jumpLimit < c.size + 3 - start then _ else _ : Writer V Unit) c = _
  by_cases near : c.size + 3 - start ≤ jumpLimit
  · rw [if_neg (Nat.not_lt.2 near), if_pos near]
    rfl
  · rw [if_pos (Nat.lt_of_not_le near), if_neg near]
    rfl

end Chunk.Writer

/-! ## The account describes the chunk -/

/-- The chunk holds what the account says. -/
structure Account.Describes {V : Type} (a : Account V) (c : Chunk V) : Prop where
  /-- The code consists of the instructions that were written. -/
  code : c.code.toList = a.entries.flatMap Entry.bytes
  /-- Every byte carries the line that its instruction was written with. -/
  lines : c.lines.toList = a.entries.flatMap fun e => List.replicate e.size e.line
  fits : ∀ e ∈ a.entries, e.Fits
  /-- At the place of a load stands the load of its index. -/
  loads : ∀ place index, (place, index) ∈ a.loads →
    ∃ line, a.entries[place]? = some (.load index line)
  /-- At the place of a jump stands a jump, and its distance is kept at the offset that was told. -/
  jumps : ∀ place offset, (place, offset) ∈ a.jumps →
    ∃ e, a.entries[place]? = some e ∧ e.instruction.opcode.IsJump ∧
      offset = extent (a.entries.take place) + 1
  /-- The constants stand at the indices that were told. -/
  given : ∀ index value, (index, value) ∈ a.given → c.constant? index = some value

namespace Account.Describes

variable {V : Type} {a : Account V} {c : Chunk V}

/-- The code is as long as all instructions together. -/
theorem size_eq (d : a.Describes c) : c.size = extent a.entries := by
  rw [Chunk.size, ← Array.length_toList, d.code, Entry.length_flatMap_bytes d.fits]

/-- An instruction is appended. -/
theorem wrote (d : a.Describes c) {e : Entry} (fits : e.Fits) :
    (a.wrote e).Describes (c.writeAll e.bytes e.line) where
  code := by simp [Account.wrote, Chunk.toList_code_writeAll, d.code]
  lines := by
    simp [Account.wrote, Chunk.toList_lines_writeAll, d.lines, fits.length_bytes]
  fits e' inside := by
    rcases List.mem_append.1 inside with old | new
    · exact d.fits e' old
    · rwa [List.mem_singleton.1 new]
  loads place index told := by
    obtain ⟨line, found⟩ := d.loads place index told
    have inside := (List.getElem?_eq_some_iff.1 found).1
    exact ⟨line, by rw [Account.wrote, List.getElem?_append_left inside, found]⟩
  jumps place offset told := by
    obtain ⟨e', found, jumps, same⟩ := d.jumps place offset told
    have inside := (List.getElem?_eq_some_iff.1 found).1
    refine ⟨e', ?_, jumps, ?_⟩
    · rw [Account.wrote, List.getElem?_append_left inside, found]
    · rw [Account.wrote, List.take_append_of_le_length (Nat.le_of_lt inside), same]
  given index value told := by
    have held := d.given index value told
    simpa only [Chunk.constant?, Chunk.constants_writeAll] using held

/-- The load of a constant is appended. -/
theorem loaded (d : a.Describes c) {index : Nat} (below : index < indexLimit) (line : Nat) :
    (a.loaded index line).Describes (c.writeAll (Entry.load index line).bytes line) :=
  let appended := d.wrote (Entry.fits_load below line)
  { code := appended.code
    lines := appended.lines
    fits := appended.fits
    loads := fun place index' told => by
      rcases List.mem_append.1 told with old | new
      · exact appended.loads place index' old
      · obtain ⟨rfl, rfl⟩ := Prod.mk.inj (List.mem_singleton.1 new)
        exact ⟨line, List.getElem?_concat_length⟩
    jumps := appended.jumps
    given := appended.given }

/-- A jump is appended that leads nowhere yet. -/
theorem jumped (d : a.Describes c) {op : Opcode} (jumps : op.IsJump) (line : Nat) :
    (a.jumped op (c.emitJump op line).1 line).Describes (c.emitJump op line).2 := by
  have fits : (⟨⟨op, [jumpLimit]⟩, [], line⟩ : Entry).Fits := by
    obtain ⟨operand, found, wide⟩ := Entry.operands_of_isJump (e := ⟨⟨op, []⟩, [], line⟩) jumps
    refine ⟨?_, fun some => absurd rfl some⟩
    simp only at found
    simp [found, wide, jumpLimit]
  have same : c.emit op [0xff, 0xff] line =
      c.writeAll (⟨⟨op, [jumpLimit]⟩, [], line⟩ : Entry).bytes line := by
    have spelled := fits.bytes_spanning jumps jumpLimit
    simp only [Entry.spanning] at spelled
    rw [spelled]
    rfl
  have appended := d.wrote fits
  rw [Chunk.emitJump, same]
  exact
    { code := appended.code
      lines := appended.lines
      fits := appended.fits
      loads := appended.loads
      jumps := fun place offset told => by
        rcases List.mem_append.1 told with old | new
        · exact appended.jumps place offset old
        · obtain ⟨rfl, rfl⟩ := Prod.mk.inj (List.mem_singleton.1 new)
          refine ⟨_, List.getElem?_concat_length, jumps, ?_⟩
          have three : (⟨⟨op, [jumpLimit]⟩, [], line⟩ : Entry).size = 3 := by
            rw [← fits.length_bytes]
            exact congrArg List.length (fits.bytes_spanning jumps jumpLimit)
          simp [Account.jumped, Account.wrote, d.size_eq, fits.length_bytes, three]
      given := appended.given }

/-- A constant is added. -/
theorem gave (d : a.Describes c) (value : V) :
    (a.gave (c.addConstant value).1 value).Describes (c.addConstant value).2 where
  code := d.code
  lines := d.lines
  fits := d.fits
  loads := d.loads
  jumps := d.jumps
  given index value' told := by
    rcases List.mem_append.1 told with old | new
    · have held : c.constants[index]? = some value' := d.given index value' old
      have inside := (Array.getElem?_eq_some_iff.1 held).1
      simp only [Chunk.constant?, Chunk.addConstant, Array.getElem?_push_lt inside]
      rw [← held, Array.getElem?_eq_getElem inside]
    · obtain ⟨rfl, rfl⟩ := Prod.mk.inj (List.mem_singleton.1 new)
      simp [Chunk.constant?, Chunk.addConstant]

/-- The jump at a place, with what was written before it and after it. -/
theorem exists_jump (d : a.Describes c) {place offset : Nat} (told : (place, offset) ∈ a.jumps) :
    ∃ before e after, a.entries = before ++ e :: after ∧ place = before.length ∧
      e.instruction.opcode.IsJump ∧ offset = extent before + 1 := by
  obtain ⟨e, found, jumps, same⟩ := d.jumps place offset told
  obtain ⟨inside, rfl⟩ := List.getElem?_eq_some_iff.1 found
  refine ⟨a.entries.take place, a.entries[place], a.entries.drop (place + 1), ?_, ?_, jumps, same⟩
  · rw [List.getElem_cons_drop, List.take_append_drop]
  · rw [List.length_take, Nat.min_eq_left (Nat.le_of_lt inside)]

/-- Two bytes after the first one behind a prefix are replaced. -/
private theorem set_behind (before after : List UInt8) (first high low high' low' : UInt8) :
    ((before ++ ([first, high, low] ++ after)).set (before.length + 1) high').set
      (before.length + 1 + 1) low' = before ++ ([first, high', low'] ++ after) := by
  induction before with
  | nil => rfl
  | cons byte before ih =>
    simpa only [List.cons_append, List.length_cons, List.set_cons_succ, List.cons.injEq, true_and]
      using ih

/-- The jump at a place is made to lead to the present end. -/
theorem patched (d : a.Describes c) {place offset : Nat} (told : (place, offset) ∈ a.jumps)
    {c' : Chunk V} (done : (Writer.patchJump offset).run c = .ok () c') :
    (a.patched place).Describes c' := by
  obtain ⟨before, e, after, parts, here, jumps, rfl⟩ := d.exists_jump told
  have fits : e.Fits := d.fits e (by simp [parts])
  have three : e.size = 3 := by
    obtain ⟨old, unpatched⟩ := fits.eq_spanning jumps
    rw [← fits.length_bytes, unpatched, fits.bytes_spanning jumps]
    rfl
  have distance : c.size - (extent before + 1) - 2 = extent after := by
    rw [d.size_eq, parts, extent_append, extent_cons, three]
    omega
  have modified : (a.patched place).entries = before ++ e.spanning (extent after) :: after := by
    have inside : before.length < (before ++ e :: after).length := by simp
    simp only [Account.patched, parts, here, List.modify_eq_take_cons_drop inside]
    simp
  rw [Writer.run_patchJump, distance] at done
  split at done
  case isFalse => exact nomatch done
  case isTrue near =>
  obtain ⟨-, rfl⟩ := EStateM.Result.ok.inj done
  refine ⟨?code, ?lines, ?fits, ?loads, ?jumps, d.given⟩
  case code =>
    obtain ⟨old, unpatched⟩ := fits.eq_spanning jumps
    have start : (before.flatMap Entry.bytes).length = extent before :=
      Entry.length_flatMap_bytes fun e' earlier => d.fits e' (by simp [parts, earlier])
    have code := d.code
    rw [parts, List.flatMap_append, List.flatMap_cons, unpatched, fits.bytes_spanning jumps] at code
    rw [modified, List.flatMap_append, List.flatMap_cons, fits.bytes_spanning jumps,
      Array.toList_setIfInBounds, Array.toList_setIfInBounds, code, ← start, set_behind]
  case lines =>
    rw [modified, d.lines, parts]
    simp [Entry.spanning, Entry.size]
  case fits =>
    intro e' member
    rw [modified, List.mem_append, List.mem_cons] at member
    rcases member with earlier | rfl | later
    · exact d.fits e' (by simp [parts, earlier])
    · exact fits.spanning jumps near
    · exact d.fits e' (by simp [parts, later])
  case loads =>
    intro place' index told'
    obtain ⟨line, load⟩ := d.loads place' index told'
    have other : place ≠ place' := by
      rintro rfl
      have found : a.entries[place]? = some e := by simp [parts, here]
      exact Entry.not_isJump_load index line (Option.some.inj (found.symm.trans load) ▸ jumps)
    exact ⟨line, by simp [Account.patched, other, load]⟩
  case jumps =>
    intro place' offset' told'
    obtain ⟨e', found', jumps', same'⟩ := d.jumps place' offset' told'
    rw [Account.patched, extent_take_modify, List.getElem?_modify, found']
    refine ⟨_, rfl, ?_, same'⟩
    split
    · exact jumps'
    · exact jumps'

end Account.Describes

/-- The chunk holds what the account of its writing says. -/
theorem Written.describes {V : Type} [Inhabited V] {c : Chunk V} {a : Account V}
    (written : Written c a) : a.Describes c := by
  induction written with
  | start =>
    exact ⟨rfl, rfl, fun _ inside => (List.not_mem_nil inside).elim,
      fun _ _ told => (List.not_mem_nil told).elim, fun _ _ told => (List.not_mem_nil told).elim,
      fun _ _ told => (List.not_mem_nil told).elim⟩
  | @plain c a _ op line none d =>
    have fits : (⟨⟨op, []⟩, [], line⟩ : Entry).Fits :=
      ⟨by rw [none]; exact .nil, fun some => absurd rfl some⟩
    have bytes : (⟨⟨op, []⟩, [], line⟩ : Entry).bytes = [op.byte] := by
      simp [Entry.bytes, none, Operand.bytes, Capture.bytes]
    have appended := d.wrote fits
    rw [bytes] at appended
    exact appended
  | @emit c a _ op args pairs line full captures d =>
    rw [op.operandWidth_eq_widths] at full
    have fits : (⟨⟨op, Operand.values op.operands args⟩, pairs, line⟩ : Entry).Fits :=
      ⟨Operand.fit_values _ _ full, captures⟩
    have bytes : (⟨⟨op, Operand.values op.operands args⟩, pairs, line⟩ : Entry).bytes =
        op.byte :: (args ++ Capture.bytes pairs) := by
      simp only [Entry.bytes, Operand.bytes_values _ _ full]
    have appended := d.wrote fits
    rw [bytes] at appended
    exact appended
  | @constant c c' a _ value index line done d =>
    rw [Writer.run_loadConstant] at done
    split at done
    case isFalse => cases done
    case isTrue room =>
    obtain ⟨rfl, rfl⟩ := EStateM.Result.ok.inj done
    exact (d.gave value).loaded room line
  | @index c c' a _ index line done d =>
    rw [Writer.run_loadIndex] at done
    split at done
    case isFalse => cases done
    case isTrue below =>
    obtain ⟨-, rfl⟩ := EStateM.Result.ok.inj done
    exact d.loaded below line
  | add _ value d => exact d.gave value
  | jump _ op line jumps d => exact d.jumped jumps line
  | patch _ told done d => exact d.patched told done
  | @loop c c' a _ start line done d =>
    rw [Writer.run_emitLoop, d.size_eq] at done
    split at done
    case isFalse => cases done
    case isTrue near =>
    obtain ⟨-, rfl⟩ := EStateM.Result.ok.inj done
    have fits : (⟨⟨.loop, [extent a.entries + 3 - start]⟩, [], line⟩ : Entry).Fits := by
      refine ⟨?_, fun some => absurd rfl some⟩
      have small : extent a.entries + 3 - start < 256 ^ 2 :=
        Nat.lt_of_le_of_lt near (by decide)
      simpa [Opcode.operands, OperandKind.width] using small
    have bytes : (⟨⟨.loop, [extent a.entries + 3 - start]⟩, [], line⟩ : Entry).bytes =
        Opcode.loop.byte :: bigEndian 2 (extent a.entries + 3 - start) := by
      simp [Entry.bytes, Opcode.operands, Operand.bytes, Capture.bytes, OperandKind.width]
    have appended := d.wrote fits
    rw [bytes] at appended
    exact appended

/-! ## Reading the account back -/

section Reading

variable {V : Type} {count : V → Nat} {c : Chunk V}

/-- The instruction of an entry is read back from its bytes. -/
theorem Entry.Fits.instruction_eq {e : Entry} (fits : e.Fits) {before after : List UInt8}
    (spelled : c.code.toList = before ++ (e.bytes ++ after)) :
    Reader.instruction c.code before.length =
      (.ok e.instruction, before.length + 1 + e.instruction.opcode.operandWidth) := by
  obtain ⟨⟨op, operands⟩, pairs, line⟩ := e
  simp only [Entry.bytes, List.cons_append, List.append_assoc] at spelled
  have opcode : c.code[before.length]? = some op.byte := by
    rw [← Array.getElem?_toList, spelled]; simp
  have operandBytes : c.code.toList = (before ++ [op.byte]) ++
      (Operand.bytes op.operands operands ++ (Capture.bytes pairs ++ after)) := by
    simpa only [List.append_assoc, List.cons_append, List.nil_append] using spelled
  have values := Reader.operands_of_toList fits.operands operandBytes
  simp only [List.length_append, List.length_singleton] at values
  simp only [Reader.instruction, opcode, Opcode.ofByte?_byte, values, op.operandWidth_eq_widths]

/-- An entry is read back from its bytes. -/
theorem Entry.Fits.item?_eq {e : Entry} (fits : e.Fits) {before after : List UInt8}
    (spelled : c.code.toList = before ++ (e.bytes ++ after))
    (captured : e.pairs.length = c.captureCount count e.instruction) :
    c.item? count before.length = some (e.item, before.length + e.size) := by
  have instruction := fits.instruction_eq spelled
  obtain ⟨⟨op, operands⟩, pairs, line⟩ := e
  simp only [Entry.bytes, List.cons_append, List.append_assoc] at spelled
  have captureBytes : c.code.toList = (before ++ op.byte :: Operand.bytes op.operands operands) ++
      (Capture.bytes pairs ++ after) := by
    simpa only [List.append_assoc, List.cons_append] using spelled
  have captures := Reader.captures_of_toList captureBytes
  simp only [List.length_append, List.length_cons, Operand.length_bytes fits.operands] at captures
  simp only [Chunk.item?, instruction, ← captured, op.operandWidth_eq_widths,
    Nat.add_assoc before.length, Nat.add_comm 1, captures, Option.map_some, Entry.item,
    Entry.size]

/-- Entries are read back from their bytes, if these are all bytes from an offset on. -/
theorem items?_eq {entries : List Entry} (fits : ∀ e ∈ entries, e.Fits)
    (captured : ∀ e ∈ entries, e.pairs.length = c.captureCount count e.instruction)
    {before : List UInt8} (spelled : c.code.toList = before ++ entries.flatMap Entry.bytes)
    {bound : Nat} (enough : entries.length ≤ bound) :
    c.items? count bound before.length = some (entries.map Entry.item) := by
  induction entries generalizing before bound with
  | nil =>
    have done : before.length = c.size := by
      rw [Chunk.size, ← Array.length_toList, spelled]; simp
    cases bound <;> simp [Chunk.items?, done]
  | cons e entries ih =>
    obtain ⟨bound, rfl⟩ : ∃ n, bound = n + 1 := ⟨bound - 1, by simp at enough; omega⟩
    have first := fits e List.mem_cons_self
    have more : before.length ≠ c.size := by
      rw [Chunk.size, ← Array.length_toList, spelled]
      simp [Entry.bytes]
    rw [List.flatMap_cons] at spelled
    have read := first.item?_eq spelled (captured e List.mem_cons_self)
    have rest := ih (fun e' later => fits e' (List.mem_cons_of_mem _ later))
      (fun e' later => captured e' (List.mem_cons_of_mem _ later))
      (by rw [spelled, List.append_assoc] : c.code.toList = (before ++ e.bytes) ++ _)
      (Nat.le_of_succ_le_succ enough)
    rw [List.length_append, first.length_bytes] at rest
    simp [Chunk.items?, more, read, rest]

namespace Account.Describes

variable {a : Account V} (d : a.Describes c)
include d

/-- Entries have as many captures as are read if closures have. -/
theorem length_pairs (captured : ∀ e ∈ a.entries, e.instruction.opcode = .closure →
      e.pairs.length = c.captureCount count e.instruction) :
    ∀ e ∈ a.entries, e.pairs.length = c.captureCount count e.instruction := by
  intro e inside
  by_cases closure : e.instruction.opcode = .closure
  · exact captured e inside closure
  · have none : e.pairs = [] := by
      by_contra some
      exact closure ((d.fits e inside).captures some)
    rw [none]
    exact (Chunk.captureCount_of_ne count c _ closure).symm

/-- An entry is read back where the earlier ones end. -/
theorem item?_eq {before after : List Entry} {e : Entry} (parts : a.entries = before ++ e :: after)
    (captured : e.pairs.length = c.captureCount count e.instruction) :
    c.item? count (extent before) = some (e.item, extent before + e.size) := by
  have code := d.code
  rw [parts, List.flatMap_append, List.flatMap_cons] at code
  have start : (before.flatMap Entry.bytes).length = extent before :=
    Entry.length_flatMap_bytes fun e' earlier => d.fits e' (by simp [parts, earlier])
  rw [← start]
  exact (d.fits e (by simp [parts])).item?_eq code captured

/-- Every byte has a line. -/
theorem size_lines : c.lines.size = c.code.size := by
  rw [← Array.length_toList, d.lines, List.length_flatMap]
  simp only [List.length_replicate]
  exact d.size_eq.symm

/-- A load decodes to the index that was told for it. -/
theorem exists_load {place index : Nat} (told : (place, index) ∈ a.loads) :
    ∃ e, a.entries[place]? = some e ∧
      (e.instruction.opcode = .constant ∨ e.instruction.opcode = .longConstant) ∧
      e.instruction.operands = [index] ∧ (e.size = 2 ↔ index < shortIndexLimit) := by
  obtain ⟨line, found⟩ := d.loads place index told
  refine ⟨_, found, ?_, rfl, ?_⟩
  · simp only [Entry.load]
    split
    · exact .inl rfl
    · exact .inr rfl
  · rw [Entry.size_load]
    split <;> simp_all

end Account.Describes

end Reading

/-- What was written is read back: reading from the start gives the instructions in order with
their operands and captures, each at the end of the one before, and ends at the end of the code.
Every byte carries the line of its instruction. A load decodes to the index that was told for it, in
two bytes exactly below the limit of short indices, and the constants stand at the indices told for
them. A load that is refused leaves the chunk as it is. -/
theorem Written.reads_back {V : Type} [Inhabited V] {c : Chunk V} {a : Account V}
    (written : Written c a) (count : V → Nat)
    (captured : ∀ e ∈ a.entries, e.instruction.opcode = .closure →
      e.pairs.length = c.captureCount count e.instruction) :
    c.items? count c.size 0 = some (a.entries.map Entry.item) ∧
    (∀ before e after, a.entries = before ++ e :: after →
      c.item? count (extent before) = some (e.item, extent before + e.size)) ∧
    c.lines.size = c.code.size ∧
    c.lines.toList = a.entries.flatMap (fun e => List.replicate e.size e.line) ∧
    (∀ place index, (place, index) ∈ a.loads → ∃ e, a.entries[place]? = some e ∧
      (e.instruction.opcode = .constant ∨ e.instruction.opcode = .longConstant) ∧
      e.instruction.operands = [index] ∧ (e.size = 2 ↔ index < shortIndexLimit)) ∧
    (∀ index value, (index, value) ∈ a.given → c.constant? index = some value) ∧
    (∀ (refusing after : Chunk V) value line reason,
      (Writer.loadConstant value line).run refusing = .error reason after →
        reason = .tooManyConstants ∧ after = refusing) ∧
    (∀ (refusing after : Chunk V) index line reason,
      (Writer.loadIndex index line).run refusing = .error reason after →
        reason = .tooManyConstants ∧ after = refusing) := by
  have d := written.describes
  have counted := d.length_pairs captured
  refine ⟨?items, ?item, d.size_lines, d.lines, fun _ _ => d.exists_load, d.given,
    fun _ _ _ _ _ => Writer.refused_loadConstant, fun _ _ _ _ _ => Writer.refused_loadIndex⟩
  case items =>
    have all : c.code.toList = [] ++ a.entries.flatMap Entry.bytes := d.code
    have enough : a.entries.length ≤ c.size := d.size_eq ▸ length_le_extent a.entries
    exact items?_eq d.fits counted all enough
  case item =>
    intro before e after parts
    exact d.item?_eq parts (counted e (by simp [parts]))

/-- A loop that leaves out a closure if its condition is false: the account of writing it. -/
def branchingAccount : Account Nat where
  entries :=
    [.load 1 1, ⟨⟨.jumpIfFalse, [5]⟩, [], 2⟩, ⟨⟨.pop, []⟩, [], 2⟩,
      ⟨⟨.closure, [2, 0]⟩, [(7, 0)], 3⟩, ⟨⟨.loop, [11]⟩, [], 4⟩]
  loads := [(0, 1)]
  jumps := [(1, 3)]
  given := [(1, 5), (2, 1)]

/-- The code of the loop. Its closure is made of the constant at index two. -/
def branchingChunk : Chunk Nat where
  code := #[0, 1, 27, 0, 5, 5, 32, 2, 7, 0, 28, 0, 11]
  lines := #[1, 1, 2, 2, 2, 2, 3, 3, 3, 3, 4, 4, 4]
  constants := #[0, 5, 1]

/-- The loop is written step by step; its jump is patched before the jump back. -/
theorem written_branching : Written branchingChunk branchingAccount :=
  let condition := Written.start.constant (rfl : (Writer.loadConstant 5 1).run .empty = .ok 1 _)
  let skipping := condition.jump .jumpIfFalse 2 (by decide)
  let popping := (skipping.plain .pop 2 rfl).add 1
  let closing := popping.emit .closure [2] [(7, 0)] 3 rfl fun _ => rfl
  let patched := closing.patch (.head _) (rfl : (Writer.patchJump 3).run _ = .ok () _)
  patched.loop (rfl : (Writer.emitLoop 2 4).run _ = .ok () _)

/-- Reading the loop gives its five instructions, the closure with its one capture. -/
theorem reads_back_branching :
    branchingChunk.items? id branchingChunk.size 0 =
      some [⟨⟨.constant, [1]⟩, []⟩, ⟨⟨.jumpIfFalse, [5]⟩, []⟩, ⟨⟨.pop, []⟩, []⟩,
        ⟨⟨.closure, [2, 0]⟩, [⟨true, 0⟩]⟩, ⟨⟨.loop, [11]⟩, []⟩] :=
  (written_branching.reads_back id (by decide)).1

end ScriptMachine
