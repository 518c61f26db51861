/-
# Listings keep to the instructions

Listings and the machine read the same bytes by different readers. The listing
of an instruction goes on where the next item is read. If an operand or a
capture is cut off, so that no item can be read, the listing says so at its end
and goes on at the end of the code; and it says so in no other case, because
the text of a complete operand never ends in that way. A byte that is no
opcode is shown by itself.

So a listing moves on at each instruction and never beyond the end of the code:
it comes to an end, and each byte of the code belongs to exactly one of the
instructions that it shows.

## Main definitions

* `Listing.CutOff`: a text that ends in the mark of truncation.
* `Listing.starts`: the offsets of the instructions that a listing shows.

## Main results

* `Listing.instruction_of_opcode`: what a listing shows and where it goes on,
  by the item that is read.
* `Listing.unknown_iff`: what is shown for bytes that are no opcodes.
* `Listing.next_bounds`: a listing moves on and stays inside of the code.
* `Listing.chunk_eq`: the listing of a chunk shows the instructions that start at these offsets.
* `Listing.existsUnique_start`: each byte belongs to exactly one instruction.
-/

import Mathlib.Logic.ExistsUnique
import ScriptMachine.Bytecode.Listing
import ScriptMachine.Proofs.Bytecode.Reading

namespace ScriptMachine

/-! ## Where items end -/

namespace Reader

/-- What is read of operands stands inside of the code, even if they are cut off. -/
theorem operands_bounds {code : Array UInt8} (operands : List Operand) {ip : Nat}
    (inside : ip ≤ code.size) : ip ≤ (Reader.operands code operands ip).2 ∧
      (Reader.operands code operands ip).2 ≤ code.size := by
  induction operands generalizing ip with
  | nil => exact ⟨Nat.le_refl ip, inside⟩
  | cons operand rest ih =>
    rw [Reader.operands]
    cases first : bigEndian? code ip operand.kind.width with
    | none => exact ⟨Nat.le_refl ip, inside⟩
    | some value =>
      have fits := mt (bigEndian?_eq_none_iff code ip operand.kind.width).2 (by simp [first])
      have bounds := ih (by omega : ip + operand.kind.width ≤ code.size)
      exact ⟨(Nat.le_add_right ip _).trans bounds.1, bounds.2⟩

/-- What is read of captures stands inside of the code, even if they are cut off. -/
theorem captures_bounds {code : Array UInt8} (count : Nat) {ip : Nat} (inside : ip ≤ code.size) :
    ip ≤ (captures code count ip).2 ∧ (captures code count ip).2 ≤ code.size := by
  induction count generalizing ip with
  | zero => exact ⟨Nat.le_refl ip, inside⟩
  | succ count ih =>
    rw [captures]
    cases kind : code[ip]? with
    | none => exact ⟨Nat.le_refl ip, inside⟩
    | some _ =>
      have first := (Array.getElem?_eq_some_iff.1 kind).1
      cases index : code[ip + 1]? with
      | none => exact ⟨Nat.le_add_right ip 1, first⟩
      | some _ =>
        have second : ip + 2 ≤ code.size := (Array.getElem?_eq_some_iff.1 index).1
        have bounds := ih second
        exact ⟨(Nat.le_add_right ip 2).trans bounds.1, bounds.2⟩

end Reader

namespace Chunk

variable {V : Type} {count : V → Nat} {c : Chunk V} {ip next : Nat} {item : Chunk.Item}

/-- Where there is a byte, it is read, and no byte outside of the code is. -/
theorem decoded_bounds (inside : ip < c.size) :
    ip < c.decoded count ip ∧ c.decoded count ip ≤ c.size := by
  obtain ⟨byte, present⟩ : ∃ byte, c.code[ip]? = some byte := ⟨_, Array.getElem?_eq_getElem inside⟩
  unfold decoded Reader.instruction
  simp only [present]
  cases Opcode.ofByte? byte with
  | none => exact ⟨Nat.lt_add_one ip, inside⟩
  | some op =>
    have after : ip + 1 ≤ c.code.size := inside
    have first := Reader.operands_bounds op.operands after
    cases read : Reader.operands c.code op.operands (ip + 1) with
    | mk values middle =>
      simp only [read] at first ⊢
      cases values with
      | none => exact first
      | some values =>
        have second := Reader.captures_bounds (c.captureCount count ⟨op, values⟩) first.2
        exact ⟨Nat.lt_of_lt_of_le first.1 second.1, second.2⟩

/-- An item ends where the reading of it does. -/
theorem decoded_of_item? (read : c.item? count ip = some (item, next)) :
    c.decoded count ip = next := by
  unfold item? at read
  unfold decoded
  split at read
  · cases read
  · obtain ⟨found, -, same⟩ := Option.map_eq_some_iff.1 read
    exact (Prod.mk.inj same).2

/-- An item ends after it begins, and inside of the code. -/
theorem item?_bounds (read : c.item? count ip = some (item, next)) :
    ip < next ∧ next ≤ c.size := by
  rw [← decoded_of_item? read]
  refine decoded_bounds (Nat.lt_of_not_le fun outside => ?_)
  -- Outside of the code there is no item.
  have absent : c.code[ip]? = none := Array.getElem?_eq_none outside
  simp [item?, Reader.instruction, absent] at read

end Chunk

namespace Listing

open Layout

variable {V : Type}

/-! ## How texts end -/

/-- The text ends in the mark of truncation. -/
def CutOff (text : String) : Prop := ∃ before, text = before ++ "<truncated>"

/-- Whatever stands before it, the text does not end in the mark of truncation. -/
def Complete (text : String) : Prop := ∀ before, ¬CutOff (before ++ text)

theorem CutOff.append {text : String} (cut : CutOff text) (before : String) :
    CutOff (before ++ text) := by
  obtain ⟨rest, rfl⟩ := cut
  exact ⟨before ++ rest, (String.append_assoc ..).symm⟩

theorem Complete.append {text : String} (complete : Complete text) (before : String) :
    Complete (before ++ text) := fun first cut =>
  complete (first ++ before) (by rwa [String.append_assoc])

/-- A text is complete if its last character is not that of the mark. -/
theorem complete_of_getLast? {text : String} {last : Char}
    (ends : text.toList.getLast? = some last) (other : last ≠ '>') : Complete text := by
  rintro before ⟨rest, same⟩
  have lists := congrArg (List.getLast? ∘ String.toList) same
  simp only [Function.comp_apply, String.toList_append, List.getLast?_append, ends] at lists
  exact other (Option.some.inj lists)

/-- The mark of a constant that does not exist is complete. -/
theorem complete_bad : Complete " <bad constant>" := by
  rintro first ⟨rest, same⟩
  have lists := congrArg (fun text => text.toList.reverse.take 2) same
  simp at lists

/-- The digits of a number end in a digit. -/
theorem exists_getLast?_toString (n : Nat) :
    ∃ last, (toString n).toList.getLast? = some last ∧ last ≠ '>' := by
  have some : (toString n).toList ≠ [] := by
    rw [Nat.toString_eq_ofList_toDigits, String.toList_ofList]
    exact Nat.toDigits_ne_nil
  refine ⟨_, List.getLast?_eq_some_getLast some, fun same => ?_⟩
  have member := List.getLast_mem some
  rw [same, Nat.toString_eq_ofList_toDigits, String.toList_ofList] at member
  exact absurd (Nat.isDigit_of_mem_toDigits (by decide) (by decide) member) (by decide)

theorem complete_number (n : Nat) : Complete (toString n) := by
  obtain ⟨last, ends, other⟩ := exists_getLast?_toString n
  exact complete_of_getLast? ends other

theorem complete_alignRight (width n : Nat) : Complete (alignRight width (toString n)) := by
  obtain ⟨last, ends, other⟩ := exists_getLast?_toString n
  refine complete_of_getLast? ?_ other
  rw [alignRight, String.toList_ofList, List.leftpad, List.getLast?_append, ends]
  rfl

/-- Every name of an opcode is complete. -/
theorem complete_name (op : Opcode) : Complete op.name := by
  have ends : ∃ last, op.name.toList.getLast? = some last ∧ last ≠ '>' := by
    cases op <;> exact ⟨_, rfl, by decide⟩
  obtain ⟨last, ends, other⟩ := ends
  exact complete_of_getLast? ends other

/-! ## Operands and captures -/

/-- An operand is shown completely. -/
theorem complete_operand (format : ConstantFormat V) (c : Chunk V) (offset next value : Nat)
    {kind : OperandKind} (plain : kind ≠ .captures) :
    Complete (operand format c offset next kind value) := by
  cases kind
  case constant | longConstant =>
    unfold operand
    cases c.constant? value with
    | none => exact complete_bad.append _
    | some constant => exact (complete_of_getLast? rfl (by decide : '\'' ≠ '>')).append _
  case slot | count => exact (complete_alignRight 4 value).append _
  case forward | backward => exact (complete_number _).append _
  case captures => exact absurd rfl plain

/-- The captures that are listed are those that are read. -/
theorem captures_agree (code : Array UInt8) (count ip : Nat) :
    match Reader.captures code count ip with
    | (some _, next) => ∃ shown, captures code count ip = (shown, next) ∧
        (count ≠ 0 → Complete shown) ∧ (count = 0 → shown = "")
    | (none, _) => ∃ shown, captures code count ip = (shown, code.size) ∧ CutOff shown := by
  induction count generalizing ip with
  | zero => exact ⟨"", rfl, fun some => absurd rfl some, fun _ => rfl⟩
  | succ count ih =>
    simp only [Reader.captures, captures]
    cases kind : code[ip]? with
    | none => exact ⟨_, rfl, "\n", rfl⟩
    | some first =>
      cases index : code[ip + 1]? with
      | none => exact ⟨_, rfl, "\n", rfl⟩
      | some second =>
        have later := ih (ip + 2)
        cases read : Reader.captures code count (ip + 2) with
        | mk found next =>
          rw [read] at later
          cases found with
          | none =>
            obtain ⟨shown, listed, cut⟩ := later
            rw [listed]
            exact ⟨_, rfl, cut.append _⟩
          | some found =>
            obtain ⟨shown, listed, complete, empty⟩ := later
            rw [listed]
            refine ⟨_, rfl, fun _ => ?_, fun none => absurd none count.succ_ne_zero⟩
            by_cases last : count = 0
            · rw [empty last, String.append_empty]
              exact (complete_number second.toNat).append _
            · exact (complete last).append _

theorem operands_cons (format : ConstantFormat V) (c : Chunk V) (offset count ip : Nat)
    {o : Operand} (rest : List Operand) (plain : o.kind ≠ .captures) :
    operands format c offset (o :: rest) count ip =
      match Reader.bigEndian? c.code ip o.kind.width with
      | none => (" <truncated>", c.size)
      | some value =>
        let (shown, next) := operands format c offset rest (captureCount format c o.kind value)
          (ip + o.kind.width)
        (operand format c offset (ip + o.kind.width) o.kind value ++ shown, next) := by
  obtain ⟨name, kind⟩ := o
  cases kind <;> first | rfl | exact absurd rfl plain

/-- Operands without captures are listed as they are read. -/
theorem operands_agree (format : ConstantFormat V) (c : Chunk V) (offset count ip : Nat)
    {ops : List Operand} (plain : ∀ o ∈ ops, o.kind ≠ .captures) :
    match Reader.operands c.code ops ip with
    | (some _, next) => ∃ shown, operands format c offset ops count ip = (shown, next) ∧
        (ops ≠ [] → Complete shown) ∧ (ops = [] → shown = "")
    | (none, _) => ∃ shown, operands format c offset ops count ip = (shown, c.size) ∧
        CutOff shown := by
  induction ops generalizing count ip with
  | nil => exact ⟨"", rfl, fun some => absurd rfl some, fun _ => rfl⟩
  | cons o rest ih =>
    have first := plain o List.mem_cons_self
    rw [operands_cons format c offset count ip rest first, Reader.operands]
    cases Reader.bigEndian? c.code ip o.kind.width with
    | none => exact ⟨_, rfl, " ", rfl⟩
    | some value =>
      have later := ih (captureCount format c o.kind value) (ip + o.kind.width)
        fun o' others => plain o' (List.mem_cons_of_mem o others)
      simp only
      cases read : Reader.operands c.code rest (ip + o.kind.width) with
      | mk values next =>
        rw [read] at later
        cases values with
        | none =>
          obtain ⟨shown, listed, cut⟩ := later
          rw [listed]
          exact ⟨_, rfl, cut.append _⟩
        | some values =>
          obtain ⟨shown, listed, complete, empty⟩ := later
          rw [listed]
          refine ⟨_, rfl, fun _ => ?_, fun none => absurd none (List.cons_ne_nil o rest)⟩
          by_cases last : rest = []
          · rw [empty last, String.append_empty]
            exact complete_operand format c offset _ value first
          · exact (complete last).append _

/-! ## Instructions -/

/-- The columns before an instruction: its offset and its line. -/
def columns (c : Chunk V) (offset : Nat) : String := s!"{fourDigits offset} {lineColumn c offset}"

section Opcode

variable {c : Chunk V} {offset : Nat} {byte : UInt8} {op : Opcode}
  (present : c.code[offset]? = some byte) (known : Opcode.ofByte? byte = some op)
include present known

/-- What is listed after the columns of an opcode, and where the listing goes on. -/
theorem instruction_eq (format : ConstantFormat V) :
    instruction format c offset =
      if op.operands.isEmpty then (columns c offset ++ op.name, offset + 1)
      else
        let (shown, next) := operands format c offset op.operands 0 (offset + 1)
        (columns c offset ++ alignLeft 16 op.name ++ shown, next) := by
  simp only [instruction, present, known, columns]

/-- Instructions that make no closure are read with their operands alone. -/
theorem item?_of_ne (count : V → Nat) (other : op ≠ .closure) :
    c.item? count offset = match Reader.operands c.code op.operands (offset + 1) with
      | (some values, next) => some (⟨⟨op, values⟩, []⟩, next)
      | (none, _) => none := by
  simp only [Chunk.item?, Reader.instruction, present, known]
  cases Reader.operands c.code op.operands (offset + 1) with
  | mk values next =>
    cases values with
    | none => rfl
    | some values =>
      simp only [Chunk.captureCount_of_ne count c values other, Reader.captures, Option.map_some]

omit known in
/-- A closure is read with the index of its function and with the captures of this function. -/
theorem item?_of_closure (count : V → Nat) (closure : Opcode.ofByte? byte = some .closure) :
    c.item? count offset = (Reader.bigEndian? c.code (offset + 1) 1).bind fun index =>
      match Reader.captures c.code (((c.constant? index).map count).getD 0) (offset + 2) with
      | (some found, next) => some (⟨⟨.closure, [index, 0]⟩, found⟩, next)
      | (none, _) => none := by
  simp only [Chunk.item?, Reader.instruction, present, closure, Opcode.operands, Reader.operands,
    OperandKind.width]
  cases Reader.bigEndian? c.code (offset + 1) 1 with
  | none => rfl
  | some index =>
    simp only [Reader.bigEndian?, Option.map_some, Chunk.captureCount, Instruction.closed?,
      Option.bind_some]
    cases Reader.captures c.code (((c.constant? index).map count).getD 0) (offset + 2) with
    | mk found next => cases found <;> rfl

/-- The listing of an opcode goes on where its item ends. If there is no item, it goes on at the end
of the code, and only then it ends in the mark of truncation. -/
theorem instruction_of_opcode (format : ConstantFormat V) :
    match c.item? format.captureCount offset with
    | some (_, next) =>
      (instruction format c offset).2 = next ∧ ¬CutOff (instruction format c offset).1
    | none =>
      (instruction format c offset).2 = c.size ∧ CutOff (instruction format c offset).1 := by
  rw [instruction_eq present known format]
  by_cases closure : op = .closure
  · subst closure
    rw [item?_of_closure present format.captureCount known]
    simp only [Opcode.operands, List.isEmpty_cons, Bool.false_eq_true, if_false, operands,
      OperandKind.width]
    cases Reader.bigEndian? c.code (offset + 1) 1 with
    | none => exact ⟨rfl, CutOff.append ⟨" ", rfl⟩ _⟩
    | some index =>
      have constant := complete_operand format c offset (offset + 2) index
        (by decide : OperandKind.constant ≠ .captures)
      have agree := captures_agree c.code (captureCount format c .constant index) (offset + 2)
      rw [captureCount] at agree
      cases read : Reader.captures c.code (((c.constant? index).map format.captureCount).getD 0)
        (offset + 2) with
      | mk found next =>
        rw [read] at agree
        cases found with
        | none =>
          obtain ⟨shown, listed, cut⟩ := agree
          simp only [Option.bind_some, read, captureCount, listed]
          exact ⟨rfl, (cut.append _).append _⟩
        | some found =>
          obtain ⟨shown, listed, complete, empty⟩ := agree
          simp only [Option.bind_some, read, captureCount, listed]
          refine ⟨trivial, ?_⟩
          by_cases none : ((c.constant? index).map format.captureCount).getD 0 = 0
          · rw [empty none, String.append_empty]
            exact constant _
          · exact (complete none).append _ _
  · have plain : ∀ o ∈ op.operands, o.kind ≠ .captures := by
      cases op <;> first | decide | exact absurd rfl closure
    have agree := operands_agree format c offset 0 (offset + 1) plain
    rw [item?_of_ne present known format.captureCount closure]
    cases read : Reader.operands c.code op.operands (offset + 1) with
    | mk values next =>
      rw [read] at agree
      cases values with
      | none =>
        obtain ⟨shown, listed, cut⟩ := agree
        have some : op.operands ≠ [] := by
          intro none
          rw [none] at read
          cases read
        simp only [List.isEmpty_iff, some, if_false, listed]
        exact ⟨trivial, cut.append _⟩
      | some values =>
        obtain ⟨shown, listed, complete, -⟩ := agree
        by_cases none : op.operands = []
        · simp only [none, List.isEmpty_nil, if_true]
          rw [none] at read
          exact ⟨(Prod.mk.inj read).2, complete_name op _⟩
        · simp only [List.isEmpty_iff, none, if_false, listed]
          exact ⟨trivial, complete none _⟩

end Opcode

/-- No name of an opcode begins like the notice of an unknown one. -/
theorem exists_head?_name (op : Opcode) :
    ∃ initial, op.name.toList.head? = some initial ∧ initial ≠ 'U' := by
  cases op <;> exact ⟨_, rfl, by decide⟩

/-- The notice of an unknown opcode stands after the columns exactly if the byte is no opcode. -/
theorem unknown_iff (format : ConstantFormat V) {c : Chunk V} {offset : Nat} {byte : UInt8}
    (present : c.code[offset]? = some byte) :
    (instruction format c offset).1 = columns c offset ++ s!"Unknown opcode {byte}" ↔
      Opcode.ofByte? byte = none := by
  cases known : Opcode.ofByte? byte with
  | none =>
    simp only [instruction, present, known, columns, iff_true]
    exact String.append_assoc ..
  | some op =>
    refine iff_of_false (fun shown => ?_) nofun
    -- The name of the opcode follows the columns, and no name begins like the notice.
    have name : ∃ rest, (instruction format c offset).1.toList =
        (columns c offset).toList ++ (op.name.toList ++ rest) := by
      rw [instruction_eq present known format]
      split
      · exact ⟨[], by simp⟩
      · simp only [String.toList_append, alignLeft, String.toList_ofList, List.rightpad,
          List.append_assoc]
        exact ⟨_, rfl⟩
    obtain ⟨rest, name⟩ := name
    rw [shown, String.toList_append] at name
    obtain ⟨initial, begins, other⟩ := exists_head?_name op
    have first := congrArg List.head? (List.append_cancel_left name)
    rw [List.head?_append, begins, String.toList_append, List.head?_append] at first
    exact other (Option.some.inj first).symm

/-- A listing moves on at each instruction, and stays inside of the code. -/
theorem next_bounds (format : ConstantFormat V) {c : Chunk V} {offset : Nat}
    (inside : offset < c.size) :
    offset < (instruction format c offset).2 ∧ (instruction format c offset).2 ≤ c.size := by
  have present : c.code[offset]? = some c.code[offset] := Array.getElem?_eq_getElem inside
  cases known : Opcode.ofByte? c.code[offset] with
  | none =>
    simp only [instruction, present, known]
    exact ⟨Nat.lt_succ_self offset, inside⟩
  | some op =>
    have agree := instruction_of_opcode present known format
    cases read : c.item? format.captureCount offset with
    | none =>
      rw [read] at agree
      rw [agree.1]
      exact ⟨inside, Nat.le_refl _⟩
    | some found =>
      obtain ⟨item, next⟩ := found
      rw [read] at agree
      rw [agree.1]
      exact Chunk.item?_bounds read

/-! ## Whole listings -/

/-- The offsets of the instructions that are listed from an offset on. -/
def starts (format : ConstantFormat V) (c : Chunk V) : (bound offset : Nat) → List Nat
  | 0, _ => []
  | bound + 1, offset =>
    if offset < c.size then offset :: starts format c bound (instruction format c offset).2 else []

theorem instructions_eq_map_starts (format : ConstantFormat V) (c : Chunk V) (bound offset : Nat) :
    instructions format c bound offset =
      (starts format c bound offset).map fun start => (instruction format c start).1 := by
  induction bound generalizing offset with
  | zero => rfl
  | succ bound ih =>
    simp only [instructions, starts]
    split
    · simp only [List.map_cons, ih]
    · rfl

/-- The listing of a chunk is its heading and these instructions, each on a line of its own. -/
theorem chunk_eq (format : ConstantFormat V) (c : Chunk V) (name : String) :
    chunk format c name = s!"== {name} ==\n" ++ String.join
      ((starts format c c.size 0).map fun start => (instruction format c start).1 ++ "\n") := by
  have heading : s!"== {name} ==" ++ "\n" = s!"== {name} ==\n" := String.append_assoc
  rw [chunk, instructions_eq_map_starts, List.map_cons, String.join_cons, heading, List.map_map]
  rfl

/-- More than enough is as good as enough: the listing ends by itself. -/
theorem starts_eq_of_le (format : ConstantFormat V) (c : Chunk V) {bound bound' offset : Nat}
    (enough : c.size - offset ≤ bound) (enough' : c.size - offset ≤ bound') :
    starts format c bound offset = starts format c bound' offset := by
  induction bound generalizing bound' offset with
  | zero =>
    cases bound' with
    | zero => rfl
    | succ bound' =>
      have done : ¬offset < c.size := by omega
      simp only [starts, done, if_false]
  | succ bound ih =>
    by_cases inside : offset < c.size
    · obtain ⟨bound', rfl⟩ : ∃ n, bound' = n + 1 := ⟨bound' - 1, by omega⟩
      have bounds := next_bounds format inside
      simp only [starts, inside, if_true]
      rw [ih (by omega) (by omega : _ ≤ bound')]
    · cases bound' <;> simp only [starts, inside, if_false]

/-- Instructions that are listed begin inside of the code, and not before the first one. -/
theorem bounds_of_mem_starts (format : ConstantFormat V) (c : Chunk V) {bound offset start : Nat}
    (listed : start ∈ starts format c bound offset) : offset ≤ start ∧ start < c.size := by
  induction bound generalizing offset with
  | zero => exact (List.not_mem_nil listed).elim
  | succ bound ih =>
    simp only [starts] at listed
    split at listed
    case isFalse => exact (List.not_mem_nil listed).elim
    case isTrue inside =>
    rcases List.mem_cons.1 listed with rfl | later
    · exact ⟨Nat.le_refl start, inside⟩
    · have bounds := ih later
      have next := next_bounds format inside
      exact ⟨by omega, bounds.2⟩

/-- Each byte belongs to exactly one of the instructions that are listed. -/
theorem existsUnique_start (format : ConstantFormat V) (c : Chunk V) {bound offset i : Nat}
    (enough : c.size - offset ≤ bound) (after : offset ≤ i) (inside : i < c.size) :
    ∃! start, start ∈ starts format c bound offset ∧ start ≤ i ∧
      i < (instruction format c start).2 := by
  induction bound generalizing offset with
  | zero => omega
  | succ bound ih =>
    have first : offset < c.size := Nat.lt_of_le_of_lt after inside
    have next := next_bounds format first
    simp only [starts, first, if_true, List.mem_cons]
    by_cases here : i < (instruction format c offset).2
    · refine ⟨offset, ⟨.inl rfl, after, here⟩, ?_⟩
      rintro start ⟨rfl | later, before, -⟩
      · rfl
      · have := bounds_of_mem_starts format c later
        omega
    · obtain ⟨start, ⟨later, covers⟩, unique⟩ := ih (by omega) (Nat.not_lt.1 here)
      refine ⟨start, ⟨.inr later, covers⟩, ?_⟩
      rintro start' ⟨rfl | later', covers'⟩
      · exact absurd covers'.2 here
      · exact unique start' ⟨later', covers'⟩

end Listing

end ScriptMachine
