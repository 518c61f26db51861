/-
# Jumps land where they were aimed

A jump forward is written with two bytes kept for its distance, and patched
when its target is reached; a jump backward knows its target when it is
written. In between anything may be written, and jumps may be patched in any
order. What is written comes after all that is there, and a patch changes the
two bytes of its own jump alone, as no two jumps share a byte. So from its
patch on a jump leads to the place where the code ended then, and a loop leads
to its start, whatever becomes of the rest.

The distance is counted from the same place by those who write it, by the
machine and by listings: from the end of the jump.

## Main definitions

* `Sketch`, `Sketch.Edit` — a chunk in the making, and one write to it
* `Sketch.Drawn`, `Sketch.Aside` — all writes, and those that do not patch a given jump
* `Chunk.LeadsTo` — where the machine and listings are led by a jump

## Main results

* `Chunk.Spells.leadsTo` — the three bytes of a jump lead over their distance
* `Sketch.Holds.edit` — no other write changes these bytes
* `Sketch.Drawn.jumps_land` — jumps that are patched and loops lead where they should for ever
-/

import ScriptMachine.Proofs.Bytecode.Writing
import ScriptMachine.Proofs.Machine.Fetching

namespace ScriptMachine

open Chunk (Writer bigEndian jumpLimit)

variable {V : Type}

/-- The instruction is a jump forward. -/
def Opcode.leaps : Opcode → Bool
  | .jump | .jumpIfFalse => true
  | _ => false

/-! ## Where jumps lead -/

namespace Chunk

/-- The instruction at a place leads to a target. A listing says so, and every machine that is
about to carry it out goes on there; if it is a jump on a condition, when the condition is false. -/
structure LeadsTo (c : Chunk V) (place : Nat) (op : Opcode) (target : Nat) : Prop where
  listed : ∀ format : ConstantFormat V, Listing.instruction format c place =
    (Listing.columns c place ++ Layout.alignLeft 16 op.name ++
      s!" {Layout.alignRight 4 (toString place)} -> {target}", place + 3)
  executed : ∀ (m : Machine) (f : Frame) (function : Function), m.frames.head? = some f →
    m.heap.function? f.function = some function → function.chunk.code = c.code → f.ip = place →
    (op = .jumpIfFalse → ∃ v, m.stack.back? = some v ∧ v.isFalsey) →
      ∃ events, Exec.step none m = .ok ⟨⟩ { m.withIp target with events }

/-- At a place stand an opcode and a number in two bytes. -/
structure Spells (c : Chunk V) (place : Nat) (op : Opcode) (distance : Nat) : Prop where
  opcode : c.code[place]? = some op.byte
  high : c.code[place + 1]? = some (UInt8.ofNat (distance / 256))
  low : c.code[place + 2]? = some (UInt8.ofNat distance)

namespace Spells

variable {c : Chunk V} {place distance : Nat} {op : Opcode}

theorem bigEndian?_eq (spells : c.Spells place op distance) (near : distance ≤ jumpLimit) :
    Reader.bigEndian? c.code (place + 1) 2 = some distance := by
  have digits : distance / 256 % 256 * 256 + distance % 256 = distance := by
    unfold jumpLimit at near
    omega
  simp [Reader.bigEndian?, spells.high, spells.low, UInt8.toNat_ofNat', digits]

/-- The listing of a jump shows its target. -/
theorem listing_eq (spells : c.Spells place op distance) (near : distance ≤ jumpLimit)
    {operand : Operand} (single : op.operands = [operand]) (wide : operand.kind.width = 2)
    (format : ConstantFormat V) : Listing.instruction format c place =
      (Listing.columns c place ++ Layout.alignLeft 16 op.name ++
        Listing.operand format c place (place + 3) operand.kind distance, place + 3) := by
  have plain : operand.kind ≠ .captures := by
    intro same
    rw [same] at wide
    cases wide
  have read := spells.bigEndian?_eq near
  rw [Listing.instruction_eq spells.opcode op.ofByte?_byte, single,
    Listing.operands_cons format c place 0 (place + 1) [] plain, wide, read]
  simp [Listing.operands]

/-- A jump is read with its distance. -/
theorem instruction_eq (spells : c.Spells place op distance) (near : distance ≤ jumpLimit)
    {operand : Operand} (single : op.operands = [operand]) (wide : operand.kind.width = 2) :
    Reader.instruction c.code place = (.ok ⟨op, [distance]⟩, place + 3) := by
  simp [Reader.instruction, spells.opcode, single, Reader.operands, wide,
    spells.bigEndian?_eq near]

/-- A machine that comes to the three bytes of a jump reads it and stands behind it. -/
theorem step_eq (spells : c.Spells place op distance) (near : distance ≤ jumpLimit)
    {operand : Operand} (single : op.operands = [operand]) (wide : operand.kind.width = 2)
    {m : Machine} {f : Frame} {function : Function} (head : m.frames.head? = some f)
    (found : m.heap.function? f.function = some function) (same : function.chunk.code = c.code)
    (here : f.ip = place) : ∃ events, Exec.step none m =
      Exec.perform op distance 0 none { m.withIp (place + 3) with events } := by
  have read := spells.instruction_eq near single wide
  rw [← same, ← here] at read
  have next : m.next? = some ⟨op, [distance]⟩ := by
    simp [Machine.next?, head, found, read, Except.toOption]
  have pointer : m.nextIp = place + 3 := by
    simp [Machine.nextIp, head, found, read, ← here]
  obtain ⟨events, step⟩ := Exec.step_eq_nextIp none next
  exact ⟨events, pointer ▸ step⟩

end Spells

end Chunk

namespace Exec

variable {m : Machine} {f : Frame}

theorem jump_eq (head : m.frames.head? = some f) (distance : Nat) :
    jump distance none m = .ok ⟨⟩ (m.withIp (f.ip + distance)) := bind_eq (frame_eq head) _

theorem jumpIfFalse_eq {v : Value} (head : m.frames.head? = some f)
    (top : m.stack.back? = some v) (falsey : v.isFalsey) (distance : Nat) :
    perform .jumpIfFalse distance 0 none m = .ok ⟨⟩ (m.withIp (f.ip + distance)) := by
  refine (bind_eq (peek_eq top) _).trans ?_
  simp only [falsey, if_true]
  exact jump_eq head distance

theorem jumpBack_eq (head : m.frames.head? = some f) {distance : Nat} (le : distance ≤ f.ip) :
    jumpBack distance none m = .ok ⟨⟩ (m.withIp (f.ip - distance)) := by
  refine (bind_eq (frame_eq head) _).trans ?_
  simp only [Nat.not_lt.mpr le, if_false]
  rfl

end Exec

namespace Chunk.Spells

variable {c : Chunk V} {place distance : Nat} {op : Opcode}

/-- A jump forward leads over its distance. -/
theorem leadsTo (spells : c.Spells place op distance) (near : distance ≤ jumpLimit)
    (leaps : op.leaps) : c.LeadsTo place op (place + 3 + distance) := by
  have forward : op.operands = [⟨"offset", .forward⟩] := by
    cases op <;> first | rfl | cases leaps
  refine ⟨spells.listing_eq near forward rfl, fun m f function head found same here taken => ?_⟩
  obtain ⟨events, step⟩ := spells.step_eq near forward rfl head found same here
  refine ⟨events, step.trans ?_⟩
  have moved := Exec.head?_withIp head (place + 3)
  rw [← m.withIp_withIp (place + 3) (place + 3 + distance)]
  cases op with
  | jump => exact Exec.jump_eq (m := { m.withIp (place + 3) with events }) moved distance
  | jumpIfFalse =>
    obtain ⟨v, top, falsey⟩ := taken rfl
    exact Exec.jumpIfFalse_eq (m := { m.withIp (place + 3) with events }) moved top falsey distance
  | _ => cases leaps

/-- A loop leads back over its distance. -/
theorem leadsTo_loop (spells : c.Spells place .loop distance) (near : distance ≤ jumpLimit)
    (inside : distance ≤ place + 3) : c.LeadsTo place .loop (place + 3 - distance) := by
  refine ⟨fun format => ?_, fun m f function head found same here _ => ?_⟩
  · rw [spells.listing_eq near rfl rfl format, Listing.operand, Listing.backwardTarget,
      if_pos inside]
  · obtain ⟨events, step⟩ := spells.step_eq near rfl rfl head found same here
    have moved := Exec.head?_withIp head (place + 3)
    rw [← m.withIp_withIp (place + 3) (place + 3 - distance)]
    exact ⟨events, step.trans
      (Exec.jumpBack_eq (m := { m.withIp (place + 3) with events }) moved inside)⟩

end Chunk.Spells

/-! ## Writing and patching -/

/-- A jump that was written to be patched, with the offset that was told for it. -/
structure Site where
  opcode : Opcode
  offset : Nat
  deriving DecidableEq, Repr

/-- A chunk in the making, with the jumps that were written to be patched. -/
structure Sketch (V : Type) where
  chunk : Chunk V
  sites : List Site := []

namespace Sketch

/-- One write to the chunk. If it patches a jump, it patches the one at this offset. -/
inductive Edit (s : Sketch V) : (patched : Option Nat) → Sketch V → Prop
  | write (byte : UInt8) (line : Nat) : Edit s none { s with chunk := s.chunk.write byte line }
  | emit (op : Opcode) (operands : List UInt8) (line : Nat) :
    Edit s none { s with chunk := s.chunk.emit op operands line }
  | add (value : V) : Edit s none { s with chunk := (s.chunk.addConstant value).2 }
  | constant {value : V} {index line : Nat} {c : Chunk V}
    (done : (Writer.loadConstant value line).run s.chunk = .ok index c) :
    Edit s none { s with chunk := c }
  | index {index line : Nat} {c : Chunk V}
    (done : (Writer.loadIndex index line).run s.chunk = .ok ⟨⟩ c) :
    Edit s none { s with chunk := c }
  /-- A jump of any kind is written to be patched. -/
  | jump (op : Opcode) (line : Nat) : Edit s none
    ⟨(s.chunk.emitJump op line).2, s.sites ++ [⟨op, (s.chunk.emitJump op line).1⟩]⟩
  /-- A jump is patched, whether it was patched before or not. -/
  | patch {site : Site} {c : Chunk V} (told : site ∈ s.sites)
    (done : (Writer.patchJump site.offset).run s.chunk = .ok ⟨⟩ c) :
    Edit s (some site.offset) { s with chunk := c }
  | loop {start line : Nat} {c : Chunk V}
    (done : (Writer.emitLoop start line).run s.chunk = .ok ⟨⟩ c) :
    Edit s none { s with chunk := c }

/-- Something is written to the chunk, or a jump is patched. -/
def Grows (s s' : Sketch V) : Prop := ∃ patched, s.Edit patched s'

/-- The same, but the jump at this offset is not patched. -/
def Aside (offset : Nat) (s s' : Sketch V) : Prop := ∃ patched ≠ some offset, s.Edit patched s'

/-- The sketch has come about from an empty chunk. -/
def Drawn [Inhabited V] (s : Sketch V) : Prop := Relation.ReflTransGen Grows ⟨.empty, []⟩ s

variable {s s' t : Sketch V} {site : Site} {patched : Option Nat} {offset place distance : Nat}
  {op : Opcode}

/-! ## What a write changes -/

/-- What is no patch appends bytes. A jump that it writes to be patched stands in these. -/
theorem Edit.appends (edit : s.Edit none s') :
    ∃ bytes, s'.chunk.code.toList = s.chunk.code.toList ++ bytes ∧
      (s'.sites = s.sites ∨ ∃ op, s'.sites = s.sites ++ [⟨op, s.chunk.size + 1⟩] ∧
        bytes = [op.byte, 0xff, 0xff]) := by
  cases edit with
  | write byte line => exact ⟨[byte], by simp [Chunk.write], .inl rfl⟩
  | emit op operands line => exact ⟨_, Chunk.toList_code_emit .., .inl rfl⟩
  | add value => exact ⟨[], by simp [Chunk.addConstant], .inl rfl⟩
  | constant done =>
    rw [Writer.run_loadConstant] at done
    split at done
    · obtain ⟨-, rfl⟩ := EStateM.Result.ok.inj done
      exact ⟨_, Chunk.toList_code_writeAll .., .inl rfl⟩
    · cases done
  | index done =>
    rw [Writer.run_loadIndex] at done
    split at done
    · obtain ⟨-, rfl⟩ := EStateM.Result.ok.inj done
      exact ⟨_, Chunk.toList_code_writeAll .., .inl rfl⟩
    · cases done
  | jump op line =>
    refine ⟨_, Chunk.toList_code_emit .., .inr ⟨op, ?_, rfl⟩⟩
    simp [Chunk.emitJump]
  | loop done =>
    rw [Writer.run_emitLoop] at done
    split at done
    · obtain ⟨-, rfl⟩ := EStateM.Result.ok.inj done
      exact ⟨_, Chunk.toList_code_emit .., .inl rfl⟩
    · cases done

/-- A patch replaces the two bytes that are kept for the distance of its jump. -/
theorem Edit.replaces (edit : s.Edit (some offset) s') :
    ∃ high low, s'.chunk.code =
        (s.chunk.code.setIfInBounds offset high).setIfInBounds (offset + 1) low ∧
      s'.sites = s.sites ∧ ∃ site ∈ s.sites, site.offset = offset := by
  cases edit with
  | patch told done =>
    rw [Writer.run_patchJump] at done
    split at done
    · obtain ⟨-, rfl⟩ := EStateM.Result.ok.inj done
      exact ⟨_, _, rfl, rfl, _, told, rfl⟩
    · cases done

/-- Bytes that are there stay as they are, save the two that a patch replaces. -/
theorem Edit.getElem?_eq (edit : s.Edit patched s') {i : Nat} {byte : UInt8}
    (there : s.chunk.code[i]? = some byte)
    (other : ∀ offset, patched = some offset → i ≠ offset ∧ i ≠ offset + 1) :
    s'.chunk.code[i]? = some byte := by
  cases patched with
  | none =>
    obtain ⟨bytes, appended, -⟩ := edit.appends
    have inside := (Array.getElem?_eq_some_iff.1 there).1
    rw [← Array.getElem?_toList, appended, List.getElem?_append_left (by simpa using inside),
      Array.getElem?_toList, there]
  | some offset =>
    obtain ⟨high, low, replaced, -⟩ := edit.replaces
    obtain ⟨first, second⟩ := other offset rfl
    rw [replaced, Array.getElem?_setIfInBounds_ne second.symm,
      Array.getElem?_setIfInBounds_ne first.symm, there]

/-- The code never gets shorter. -/
theorem Edit.size_le (edit : s.Edit patched s') : s.chunk.size ≤ s'.chunk.size := by
  cases patched with
  | none =>
    obtain ⟨bytes, appended, -⟩ := edit.appends
    rw [Chunk.size, Chunk.size, ← Array.length_toList, ← Array.length_toList, appended]
    simp
  | some offset =>
    obtain ⟨high, low, replaced, -⟩ := edit.replaces
    simp [Chunk.size, replaced]

/-- A jump that is written to be patched was there before, or it stands at the end. -/
theorem Edit.sites (edit : s.Edit patched s') : s'.sites = s.sites ∨
    ∃ op, s'.sites = s.sites ++ [⟨op, s.chunk.size + 1⟩] ∧
      s'.chunk.code.toList = s.chunk.code.toList ++ [op.byte, 0xff, 0xff] := by
  cases patched with
  | none =>
    obtain ⟨bytes, appended, kept | ⟨op, added, rfl⟩⟩ := edit.appends
    · exact .inl kept
    · exact .inr ⟨op, added, appended⟩
  | some offset =>
    obtain ⟨high, low, -, kept, -⟩ := edit.replaces
    exact .inl kept

/-! ## Jumps keep apart -/

/-- The jumps to be patched stand inside of the code one after the other, and each has its opcode
before the two bytes that are kept for it. -/
structure Laid (s : Sketch V) : Prop where
  pos : ∀ site ∈ s.sites, 1 ≤ site.offset
  inside : ∀ site ∈ s.sites, site.offset + 2 ≤ s.chunk.size
  opcode : ∀ site ∈ s.sites, s.chunk.code[site.offset - 1]? = some site.opcode.byte
  apart : s.sites.Pairwise fun site later => site.offset + 3 ≤ later.offset

/-- Of two jumps to be patched one stands before the other. -/
theorem Laid.apart_or (laid : s.Laid) {other : Site} (told : site ∈ s.sites)
    (told' : other ∈ s.sites) : site.offset = other.offset ∨
      site.offset + 3 ≤ other.offset ∨ other.offset + 3 ≤ site.offset := by
  let either (site other : Site) : Prop := site.offset = other.offset ∨
    site.offset + 3 ≤ other.offset ∨ other.offset + 3 ≤ site.offset
  have forward : s.sites.Pairwise either := laid.apart.imp fun le => .inr (.inl le)
  have backward : s.sites.Pairwise (flip either) := laid.apart.imp fun le => .inr (.inr le)
  exact forward.forall_of_forall_of_flip (fun _ _ => .inl rfl) backward told told'

/-- A write leaves the jumps to be patched in order. -/
theorem Laid.edit (laid : s.Laid) (edit : s.Edit patched s') : s'.Laid := by
  have old {site : Site} (told : site ∈ s.sites) :
      1 ≤ site.offset ∧ site.offset + 2 ≤ s'.chunk.size ∧
        s'.chunk.code[site.offset - 1]? = some site.opcode.byte := by
    have pos := laid.pos site told
    refine ⟨pos, (laid.inside site told).trans edit.size_le,
      edit.getElem?_eq (laid.opcode site told) ?_⟩
    rintro offset rfl
    obtain ⟨-, -, -, -, other, told', rfl⟩ := edit.replaces
    have := laid.apart_or told told'
    omega
  obtain kept | ⟨op, added, appended⟩ := edit.sites
  · exact ⟨fun site told => (old (kept ▸ told)).1, fun site told => (old (kept ▸ told)).2.1,
      fun site told => (old (kept ▸ told)).2.2, kept ▸ laid.apart⟩
  · have size : s'.chunk.size = s.chunk.size + 3 := by
      rw [Chunk.size, ← Array.length_toList, appended]
      simp [Chunk.size]
    have byte : s'.chunk.code[s.chunk.size]? = some op.byte := by
      rw [← Array.getElem?_toList, appended, Chunk.size, ← Array.length_toList,
        List.getElem?_append_right (Nat.le_refl _), Nat.sub_self]
      rfl
    have new : 1 ≤ s.chunk.size + 1 ∧ s.chunk.size + 1 + 2 ≤ s'.chunk.size ∧
        s'.chunk.code[s.chunk.size + 1 - 1]? = some op.byte :=
      ⟨Nat.le_add_left 1 _, size.ge, byte⟩
    have all {site : Site} (told : site ∈ s'.sites) :
        1 ≤ site.offset ∧ site.offset + 2 ≤ s'.chunk.size ∧
          s'.chunk.code[site.offset - 1]? = some site.opcode.byte := by
      rw [added, List.mem_append, List.mem_singleton] at told
      rcases told with told | rfl
      · exact old told
      · exact new
    refine ⟨fun site told => (all told).1, fun site told => (all told).2.1,
      fun site told => (all told).2.2, ?_⟩
    rw [added]
    refine List.pairwise_append.2 ⟨laid.apart, List.pairwise_singleton _ _, ?_⟩
    intro site told later last
    rw [List.mem_singleton.1 last]
    exact Nat.succ_le_succ (laid.inside site told)

theorem Drawn.laid [Inhabited V] (drawn : s.Drawn) : s.Laid := by
  induction drawn with
  | refl => exact ⟨nofun, nofun, nofun, .nil⟩
  | tail _ grows ih =>
    obtain ⟨patched, edit⟩ := grows
    exact ih.edit edit

/-! ## A jump stays as it is -/

/-- A jump over a distance stands at a place, and no other jump to be patched keeps bytes there. -/
structure Holds (s : Sketch V) (place : Nat) (op : Opcode) (distance : Nat) : Prop where
  spells : s.chunk.Spells place op distance
  clear : ∀ site ∈ s.sites,
    site.offset = place + 1 ∨ site.offset + 2 ≤ place ∨ place + 3 ≤ site.offset

/-- No write changes the bytes of a jump, unless it patches this jump. -/
theorem Holds.edit (holds : s.Holds place op distance) (edit : s.Edit patched s')
    (aside : patched ≠ some (place + 1)) : s'.Holds place op distance := by
  have kept {i : Nat} {byte : UInt8} (there : s.chunk.code[i]? = some byte) (le : place ≤ i)
      (lt : i < place + 3) : s'.chunk.code[i]? = some byte := by
    refine edit.getElem?_eq there ?_
    rintro offset rfl
    obtain ⟨-, -, -, -, site, told, rfl⟩ := edit.replaces
    have other : site.offset ≠ place + 1 := fun same => aside (congrArg some same)
    have := holds.clear site told
    omega
  obtain ⟨opcode, high, low⟩ := holds.spells
  refine ⟨⟨kept opcode (by omega) (by omega), kept high (by omega) (by omega),
    kept low (by omega) (by omega)⟩, ?_⟩
  obtain same | ⟨op, added, -⟩ := edit.sites
  · exact same ▸ holds.clear
  · intro site told
    rw [added, List.mem_append, List.mem_singleton] at told
    rcases told with told | rfl
    · exact holds.clear site told
    · have inside : place + 2 < s.chunk.size := (Array.getElem?_eq_some_iff.1 low).1
      exact .inr (.inr (Nat.succ_le_succ (Nat.le_of_lt_succ (Nat.lt_succ_of_lt inside))))

theorem Holds.aside (holds : s.Holds place op distance) (kept : offset = place + 1)
    (writes : Relation.ReflTransGen (Aside offset) s t) : t.Holds place op distance := by
  induction writes with
  | refl => exact holds
  | tail _ write ih =>
    obtain ⟨patched, aside, edit⟩ := write
    exact ih.edit edit (kept ▸ aside)

/-- Writes never patch a jump that was not written to be patched. -/
theorem aside_of_grows (fixed : ∀ site ∈ s.sites, site.offset ≠ offset)
    (short : offset ≤ s.chunk.size) (writes : Relation.ReflTransGen Grows s t) :
    Relation.ReflTransGen (Aside offset) s t := by
  suffices both : Relation.ReflTransGen (Aside offset) s t ∧
      (∀ site ∈ t.sites, site.offset ≠ offset) ∧ offset ≤ t.chunk.size from both.1
  induction writes with
  | refl => exact ⟨.refl, fixed, short⟩
  | tail _ write ih =>
    obtain ⟨writes, fixed, short⟩ := ih
    obtain ⟨patched, edit⟩ := write
    refine ⟨writes.tail ⟨patched, ?_, edit⟩, ?_, short.trans edit.size_le⟩
    · rintro rfl
      obtain ⟨-, -, -, -, site, told, same⟩ := edit.replaces
      exact fixed site told same
    · obtain same | ⟨op, added, -⟩ := edit.sites
      · exact same ▸ fixed
      · intro site told
        rw [added, List.mem_append, List.mem_singleton] at told
        rcases told with told | rfl
        · exact fixed site told
        · exact Nat.ne_of_gt (Nat.lt_succ_of_le short)

/-- A jump that was just patched leads over all bytes behind it. -/
theorem Laid.holds (laid : s.Laid) (told : site ∈ s.sites) {c : Chunk V}
    (done : (Writer.patchJump site.offset).run s.chunk = .ok ⟨⟩ c) :
    Holds { s with chunk := c } (site.offset - 1) site.opcode (s.chunk.size - site.offset - 2) := by
  have pos := laid.pos site told
  have inside := laid.inside site told
  have opcode := laid.opcode site told
  rw [Writer.run_patchJump] at done
  split at done
  case isFalse => cases done
  obtain ⟨-, rfl⟩ := EStateM.Result.ok.inj done
  have first : site.offset - 1 + 1 = site.offset := Nat.sub_add_cancel pos
  have second : site.offset - 1 + 2 = site.offset + 1 := by omega
  rw [Chunk.size] at inside
  refine ⟨⟨?_, ?_, ?_⟩, fun other told' => ?_⟩
  · rw [Array.getElem?_setIfInBounds_ne (by omega), Array.getElem?_setIfInBounds_ne (by omega)]
    exact opcode
  · rw [first, Array.getElem?_setIfInBounds_ne (by omega),
      Array.getElem?_setIfInBounds_self_of_lt (by omega)]
  · rw [second, Array.getElem?_setIfInBounds_self_of_lt (by rw [Array.size_setIfInBounds]; omega)]
  · have := laid.apart_or told told'
    omega

/-- A loop that was just written leads back to its start. -/
theorem Laid.holds_loop (laid : s.Laid) (distance line : Nat) :
    Holds { s with chunk := s.chunk.emit .loop (bigEndian 2 distance) line } s.chunk.size .loop
      distance := by
  have there (i : Nat) (byte : UInt8)
      (at_ : (Opcode.loop.byte :: bigEndian 2 distance)[i]? = some byte) :
      (s.chunk.emit .loop (bigEndian 2 distance) line).code[s.chunk.size + i]? = some byte := by
    rw [← Array.getElem?_toList, Chunk.toList_code_emit, Chunk.size, ← Array.length_toList,
      List.getElem?_append_right (Nat.le_add_right _ _), Nat.add_sub_cancel_left, at_]
  refine ⟨⟨there 0 _ rfl, there 1 _ rfl, there 2 _ rfl⟩, fun site told => ?_⟩
  exact .inr (.inl (laid.inside site told))

/-- Once it is patched, a jump leads to what was the end of the code. -/
theorem Laid.leadsTo (laid : s.Laid) (told : site ∈ s.sites) (leaps : site.opcode.leaps)
    (near : s.chunk.size - site.offset - 2 ≤ jumpLimit) {c : Chunk V}
    (done : (Writer.patchJump site.offset).run s.chunk = .ok ⟨⟩ c)
    (writes : Relation.ReflTransGen (Aside site.offset) { s with chunk := c } t) :
    t.chunk.LeadsTo (site.offset - 1) site.opcode s.chunk.size := by
  have pos := laid.pos site told
  have inside := laid.inside site told
  have holds := (laid.holds told done).aside (Nat.sub_add_cancel pos).symm writes
  have target : site.offset - 1 + 3 + (s.chunk.size - site.offset - 2) = s.chunk.size := by omega
  exact target ▸ holds.spells.leadsTo near leaps

/-- Once it is written, a loop leads to its start. -/
theorem Laid.leadsTo_loop (laid : s.Laid) {start line : Nat} (before : start ≤ s.chunk.size)
    (near : s.chunk.size + 3 - start ≤ jumpLimit) {c : Chunk V}
    (done : (Writer.emitLoop start line).run s.chunk = .ok ⟨⟩ c)
    (writes : Relation.ReflTransGen Grows { s with chunk := c } t) :
    t.chunk.LeadsTo s.chunk.size .loop start := by
  rw [Writer.run_emitLoop, if_pos near] at done
  obtain ⟨-, rfl⟩ := EStateM.Result.ok.inj done
  have fixed : ∀ site ∈ s.sites, site.offset ≠ s.chunk.size + 1 := fun site told => by
    have := laid.inside site told
    omega
  have looped := laid.holds_loop (s.chunk.size + 3 - start) line
  have inside := (Array.getElem?_eq_some_iff.1 looped.spells.high).1
  have holds := looped.aside rfl (aside_of_grows fixed (Nat.le_of_lt inside) writes)
  have target : s.chunk.size + 3 - (s.chunk.size + 3 - start) = start := by omega
  exact target ▸ holds.spells.leadsTo_loop near (Nat.sub_le _ _)

end Sketch

/-- Jumps land where they were aimed, whatever was written in whatever order. A jump that was
written to be patched can be patched as long as the code behind it is not too long, and then leads
to the present end of the code until it is patched again. A loop back to a start can be written as
long as the code from there on is not too long, and then leads to the start for ever. What is
refused leaves the chunk as it is. -/
theorem Sketch.Drawn.jumps_land [Inhabited V] {s : Sketch V} (drawn : s.Drawn) :
    (∀ site ∈ s.sites, 1 ≤ site.offset ∧ site.offset + 2 ≤ s.chunk.size ∧
      (s.chunk.size - site.offset - 2 ≤ 65535 →
        ∃ c, (Writer.patchJump site.offset).run s.chunk = .ok ⟨⟩ c ∧
          (site.opcode.leaps → ∀ t : Sketch V,
            Relation.ReflTransGen (Aside site.offset) { s with chunk := c } t →
              t.chunk.LeadsTo (site.offset - 1) site.opcode s.chunk.size)) ∧
      (65535 < s.chunk.size - site.offset - 2 → (Writer.patchJump site.offset).run s.chunk =
        .error (.jumpTooLarge (s.chunk.size - site.offset - 2)) s.chunk)) ∧
    ∀ start line, start ≤ s.chunk.size →
      (s.chunk.size + 3 - start ≤ 65535 →
        ∃ c, (Writer.emitLoop start line).run s.chunk = .ok ⟨⟩ c ∧
          ∀ t : Sketch V, Relation.ReflTransGen Grows { s with chunk := c } t →
            t.chunk.LeadsTo s.chunk.size .loop start) ∧
      (65535 < s.chunk.size + 3 - start → (Writer.emitLoop start line).run s.chunk =
        .error (.loopTooLarge (s.chunk.size + 3 - start)) s.chunk) := by
  have laid := drawn.laid
  refine ⟨fun site told => ⟨laid.pos site told, laid.inside site told, fun near => ?_,
    fun far => ?_⟩, fun start line before => ⟨fun near => ?_, fun far => ?_⟩⟩
  · have done := Writer.run_patchJump site.offset s.chunk
    rw [if_pos (show _ ≤ jumpLimit from near)] at done
    exact ⟨_, done, fun leaps t writes => laid.leadsTo told leaps near done writes⟩
  · rw [Writer.run_patchJump, if_neg (show ¬ _ ≤ jumpLimit from Nat.not_le.2 far)]
  · have done := Writer.run_emitLoop start line s.chunk
    rw [if_pos (show _ ≤ jumpLimit from near)] at done
    exact ⟨_, done, fun t writes => laid.leadsTo_loop before near done writes⟩
  · rw [Writer.run_emitLoop, if_neg (show ¬ _ ≤ jumpLimit from Nat.not_le.2 far)]

/-- A jump and a jump on a condition, both to be patched, in code on one line. -/
def crossing (code : Array UInt8) : Sketch Value where
  chunk := ⟨code, Array.replicate code.size 7, #[.nil]⟩
  sites := [⟨.jump, 1⟩, ⟨.jumpIfFalse, 4⟩]

/-- The jump leads to a loop, the loop back to the jump on a condition, and this behind the loop. -/
def crossed : Chunk Value := (crossing #[26, 0, 3, 27, 0, 3, 28, 0, 6]).chunk

/-- A machine that is about to carry out the jump. -/
def leaping : Machine :=
  let (function, m) := (Machine.start {} default .zero).allocate (.function (.script crossed)) []
  m.left (Machine.enter function) none

/-- The jump is patched before the loop is written, and the jump on a condition after that. -/
theorem jumps_land_crossing :
    crossed.LeadsTo 0 .jump 6 ∧ crossed.LeadsTo 6 .loop 3 ∧ crossed.LeadsTo 3 .jumpIfFalse 9 ∧
      (Listing.instruction leaping.heap.constantFormat crossed 6).1 =
        "0006    | Loop                6 -> 3" ∧
      ∃ events, Exec.step none leaping = .ok ⟨⟩ { leaping.withIp 6 with events } := by
  have first (code : Array UInt8) : ⟨.jump, 1⟩ ∈ (crossing code).sites := .head _
  have second (code : Array UInt8) : ⟨.jumpIfFalse, 4⟩ ∈ (crossing code).sites := .tail _ (.head _)
  have patched : (Writer.patchJump 1).run (crossing #[26, 0xff, 0xff, 27, 0xff, 0xff]).chunk =
      .ok ⟨⟩ (crossing #[26, 0, 3, 27, 0xff, 0xff]).chunk := rfl
  have looped : (Writer.emitLoop 3 7).run (crossing #[26, 0, 3, 27, 0xff, 0xff]).chunk =
      .ok ⟨⟩ (crossing #[26, 0, 3, 27, 0xff, 0xff, 28, 0, 6]).chunk := rfl
  have patched' : (Writer.patchJump 4).run
      (crossing #[26, 0, 3, 27, 0xff, 0xff, 28, 0, 6]).chunk = .ok ⟨⟩ crossed := rfl
  have drawn : (crossing #[26, 0xff, 0xff, 27, 0xff, 0xff]).Drawn :=
    .tail (.single ⟨_, .jump .jump 7⟩) ⟨_, .jump .jumpIfFalse 7⟩
  have drawn' : (crossing #[26, 0, 3, 27, 0xff, 0xff]).Drawn :=
    drawn.tail ⟨_, .patch (first _) patched⟩
  have drawn'' : (crossing #[26, 0, 3, 27, 0xff, 0xff, 28, 0, 6]).Drawn :=
    drawn'.tail ⟨_, .loop looped⟩
  obtain ⟨-, -, patches, -⟩ := drawn.jumps_land.1 _ (first _)
  obtain ⟨c, run, leads⟩ := patches (by decide)
  cases patched.symm.trans run
  obtain ⟨c', run', leads'⟩ := (drawn'.jumps_land.2 3 7 (by decide)).1 (by decide)
  cases looped.symm.trans run'
  obtain ⟨-, -, patches, -⟩ := drawn''.jumps_land.1 _ (second _)
  obtain ⟨c'', run'', leads''⟩ := patches (by decide)
  cases patched'.symm.trans run''
  have jump : crossed.LeadsTo 0 .jump 6 := leads rfl _
    (.tail (.single ⟨none, nofun, .loop looped⟩) ⟨some 4, by decide, .patch (second _) patched'⟩)
  have loop : crossed.LeadsTo 6 .loop 3 := leads' _ (.single ⟨_, .patch (second _) patched'⟩)
  have skip : crossed.LeadsTo 3 .jumpIfFalse 9 := leads'' rfl _ .refl
  have head : leaping.frames.head? = some ⟨⟨4⟩, ⟨3⟩, 0, 0⟩ := by decide +kernel
  have code : (leaping.heap.function? ⟨3⟩).map (·.chunk.code) = some crossed.code := by
    decide +kernel
  obtain ⟨function, found, same⟩ := Option.map_eq_some_iff.mp code
  refine ⟨jump, loop, skip, ?_, jump.executed leaping _ function head found same rfl nofun⟩
  rw [loop.listed]
  decide +kernel

end ScriptMachine
