/-
# Backtraces name the right places

A frame that has called waits with its instruction pointer just after the
instruction of the call, whatever calls, returns and jumps happen above it. So
the byte before the pointer belongs to that instruction, and its line is the
line of the call.

Where an instruction fails, the pointer of the innermost frame stands after the
last byte that has been read of the instruction: after all of it, or after as
much as there is if it is cut off. Jumps that fail have not moved the pointer,
and calls that are refused have pushed no frame.

## Main definitions

* `Exec.Framed`, `Exec.Stalls` — actions that leave the frames alone, and that do so where they stop
* `Machine.decodedIp` — the offset after the last byte that is read of the next instruction
* `Machine.Shifts` — what a step does to the frames
* `Machine.Creates` — the call that has created a frame
* `Machine.Pending` — the instruction that fails, or a call on which a frame waits
* `Machine.Marks` — a frame stands after the instruction of another machine

## Main results

* `Intact.frames_of_failed` — where the frames stand when an instruction has failed
* `Occurs.shifts` — a step moves the innermost frame, calls or returns
* `Occurs.pending` — frames stand after the calls on which they wait
* `Occurs.backtraces_placed` — the entries of a backtrace show these instructions
-/

import ScriptMachine.Proofs.Machine.Computing
import ScriptMachine.Proofs.Machine.Fetching

namespace ScriptMachine

open Heap

/-! ## Lines of instructions -/

namespace Chunk

variable {V : Type} {c : Chunk V} {offset : Nat}

/-- All bytes of an instruction that is emitted carry its line. -/
theorem line?_emit (lined : c.lines.size = c.size) (op : Opcode) (operands : List UInt8)
    (line : Nat) (start : c.size ≤ offset) (stop : offset < (c.emit op operands line).size) :
    (c.emit op operands line).line? offset = some line := by
  have lines : (c.emit op operands line).lines.toList =
      c.lines.toList ++ List.replicate (operands.length + 1) line := by
    simp [emit, toList_lines_writeAll, write, List.replicate_succ]
  have before : c.lines.toList.length ≤ offset := by rwa [Array.length_toList, lined]
  rw [size_emit] at stop
  rw [line?, ← Array.getElem?_toList, lines, List.getElem?_append_right before,
    List.getElem?_replicate, if_pos]
  rw [Array.length_toList, lined]
  omega

end Chunk

namespace Exec

open Machine

variable {α β : Type} {m : Machine} {x : Exec α} {f : α → Exec β}

/-! ## Actions that leave the frames alone -/

/-- Whether it stops or not, the action leaves the frames as they were. -/
def Framed (x : Exec α) : Prop :=
  ∀ m, x.Leaves m (fun _ m' => m'.frames = m.frames) fun m' => m'.frames = m.frames

/-- Where the action stops, the frames are as they were. -/
def Stalls (x : Exec α) : Prop :=
  ∀ m, x.Leaves m (fun _ _ => True) fun m' => m'.frames = m.frames

namespace Framed

theorem of_reads (reads : x.Reads) : x.Framed := fun _ => .of_reads reads (fun _ => rfl) rfl

theorem bind (first : x.Framed) (next : ∀ a, (f a).Framed) : (x >>= f).Framed := by
  refine fun m => .bind ((first m).mono (fun a m' same => ?_) fun _ same => same)
  exact (next a m').mono (fun _ _ eq => eq.trans same) fun _ eq => eq.trans same

theorem read (reads : x.Reads) (next : ∀ a, (f a).Framed) : (x >>= f).Framed :=
  bind (of_reads reads) next

theorem ite {p : Prop} [Decidable p] {y : Exec α} (yes : x.Framed) (no : y.Framed) :
    (if p then x else y).Framed := by
  split
  · exact yes
  · exact no

theorem pure (a : α) : Framed (Pure.pure a) := of_reads (.pure a)

theorem fail (kind : ErrorKind) : Framed (Exec.fail kind : Exec α) := of_reads (.fail kind)

theorem discard (first : x.Framed) : (Functor.discard x).Framed :=
  bind (f := fun _ => Pure.pure ()) first fun _ => pure _

/-- A test that stops with an error, and what comes after it. -/
theorem guard {p : Prop} [Decidable p] {kind : ErrorKind} {f : Unit → Exec Unit}
    (rest : (f ⟨⟩).Framed) : (if p then Exec.fail kind >>= f else f ⟨⟩).Framed :=
  ite (bind (fail _) fun _ => rest) rest

theorem modify {g : Machine → Machine} (same : ∀ m, (g m).frames = m.frames) :
    (modify g : Exec Unit).Framed := same

theorem modifyHeap (g : Heap → Heap) : (Exec.modifyHeap g).Framed := fun _ => rfl

theorem push (v : Value) : (Exec.push v).Framed := fun _ => .push rfl rfl

theorem pop : Exec.pop.Framed := fun _ => .pop (fun _ => rfl) rfl

theorem setSlot (slot : Nat) (v : Value) : (Exec.setSlot slot v).Framed :=
  fun _ => .get_bind (.ite (fun _ => rfl) fun _ => rfl)

theorem allocate (object : Object) : (Exec.allocate object).Framed := fun _ => .allocate rfl

theorem intern (text : String) : (Exec.intern text).Framed := fun _ => .bind rfl

theorem replaceTop (v : Value) : Framed (do Functor.discard Exec.pop; Exec.push v) :=
  bind (discard pop) fun _ => push v

theorem replaceTwo (v : Value) :
    Framed (do Functor.discard Exec.pop; Functor.discard Exec.pop; Exec.push v) :=
  bind (discard pop) fun _ => replaceTop v

theorem popClass : Exec.popClass.Framed :=
  bind pop fun _ => read (.class? _) fun _ => of_reads (.bind (.orFail _ _) fun ⟨_, _⟩ => .pure _)

theorem setLocal (slot : Nat) (v : Value) : (Exec.setLocal slot v).Framed :=
  read .frame fun _ => read .get fun _ => ite (setSlot _ _) (fail _)

theorem bindMethod (cls : Handle) (key : Key) : (Exec.bindMethod cls key).Framed := by
  refine read (.method? _ _) fun _ => ?_
  split
  · exact of_reads (.undefinedProperty _)
  · exact read (.peek _) fun _ => bind (allocate _) fun _ => replaceTop _

theorem getProperty (key : Key) : (Exec.getProperty key).Framed := by
  refine read (.peek _) fun _ => read (.instance? _) fun _ => read (.orFail _ _) ?_
  rintro ⟨_, _, fields⟩
  simp only
  split
  · exact replaceTop _
  · exact bindMethod _ _

theorem setProperty (key : Key) : (Exec.setProperty key).Framed :=
  read (.peek _) fun _ => read (.peek _) fun _ => read (.instance? _) fun _ =>
    read (.orFail _ _) fun ⟨_, _, _⟩ => bind (modifyHeap _) fun _ => replaceTwo _

theorem inherit : Exec.inherit.Framed :=
  read (.peek _) fun _ => read (.peek _) fun _ => read (.class? _) fun _ =>
    read (.orFail _ _) fun ⟨_, _⟩ => read (.class? _) fun _ => read (.orMalformed _ _) fun ⟨_, _⟩ =>
      bind (modifyHeap _) fun _ => discard pop

theorem defineMethod (key : Key) : (Exec.defineMethod key).Framed :=
  read (.peek _) fun _ => read (.peek _) fun _ => read (.class? _) fun _ =>
    read (.orMalformed _ _) fun ⟨_, _⟩ => bind (modifyHeap _) fun _ => discard pop

theorem captureSlot (slot : Nat) : (Exec.captureSlot slot).Framed := by
  refine read .get fun _ => ?_
  split
  · exact pure _
  · exact bind (allocate _) fun _ => bind (modify fun _ => rfl) fun _ => pure _

theorem resolve (capture : Capture) : (Exec.resolve capture).Framed :=
  ite (read .frame fun _ => captureSlot _) (of_reads (.upvalue _))

theorem captureAll (closure : Handle) (captures : List Capture) :
    (Exec.captureAll closure captures).Framed := by
  induction captures with
  | nil => exact pure _
  | cons capture rest ih =>
    have captured (h : Handle) := bind (modifyHeap (·.pushCaptured closure h)) fun _ => ih
    exact bind (resolve capture) fun h => read .get fun _ =>
      ite (bind (of_reads (.throw _)) fun _ => captured h) (captured h)

theorem setUpvalue (index : Nat) : (Exec.setUpvalue index).Framed := by
  refine read (.upvalue _) fun _ => read (.peek _) fun _ => read .get fun _ =>
    read (.orBroken _ _) fun _ => ?_
  split
  · exact ite (setSlot _ _) (fail _)
  · exact modifyHeap _
  · exact fail _

theorem closeTop : Exec.closeTop.Framed :=
  read .get fun _ => guard (bind (modify fun m => by rw [closeFrom_eq]) fun _ => discard pop)

theorem binary (op : Number → Number → Value) : (Exec.binary op).Framed := by
  refine read (.peek _) fun _ => read (.peek _) fun _ => ?_
  split
  · exact replaceTwo _
  · exact fail _

theorem join (a b : Value) : (Exec.join a b).Framed := by
  refine read .get fun _ => guard ?_
  split
  · exact bind (intern _) fun _ => replaceTwo _
  · exact fail _

theorem add : Exec.add.Framed := by
  refine read (.peek _) fun _ => read (.peek _) fun _ => ?_
  split
  · exact replaceTwo _
  · exact join _ _

theorem negate : Exec.negate.Framed := by
  refine read (.peek _) fun _ => ?_
  split
  · exact replaceTop _
  · exact fail _

theorem print : Exec.print.Framed :=
  bind pop fun _ _ => .get_bind (.bind (.ite (fun _ => rfl) fun _ => rfl))

theorem storeGlobal (key : Key) (v : Value) : (Exec.storeGlobal key v).Framed := fun _ => rfl

theorem getGlobal (key : Key) : (Exec.getGlobal key).Framed := by
  refine read .get fun _ => ?_
  split
  · exact push _
  · exact of_reads (.bind (.textOf _) fun _ => .fail _)

theorem defineGlobal (key : Key) : (Exec.defineGlobal key).Framed :=
  read (.peek _) fun _ => bind (discard (storeGlobal _ _)) fun _ => discard pop

theorem setGlobal (key : Key) : (Exec.setGlobal key).Framed :=
  read (.peek _) fun _ => bind (storeGlobal _ _) fun _ =>
    ite (bind (modify fun _ => rfl) fun _ => of_reads (.bind (.textOf _) fun _ => .fail _)) (pure _)

end Framed

/-! ## Actions that leave the frames alone where they stop -/

namespace Stalls

theorem of_framed (framed : x.Framed) : x.Stalls :=
  fun m => (framed m).mono (fun _ _ _ => trivial) fun _ same => same

theorem of_reads (reads : x.Reads) : x.Stalls := of_framed (.of_reads reads)

theorem bind (first : x.Framed) (next : ∀ a, (f a).Stalls) : (x >>= f).Stalls := by
  refine fun m => .bind ((first m).mono (fun a m' same => ?_) fun _ same => same)
  exact (next a m').mono (fun _ _ _ => trivial) fun _ eq => eq.trans same

theorem read (reads : x.Reads) (next : ∀ a, (f a).Stalls) : (x >>= f).Stalls :=
  bind (.of_reads reads) next

theorem ite {p : Prop} [Decidable p] {y : Exec α} (yes : x.Stalls) (no : y.Stalls) :
    (if p then x else y).Stalls := by
  split
  · exact yes
  · exact no

theorem fail (kind : ErrorKind) : Stalls (Exec.fail kind : Exec α) := of_reads (.fail kind)

/-- A test that stops with an error, and what comes after it. -/
theorem guard {p : Prop} [Decidable p] {kind : ErrorKind} {f : Unit → Exec Unit}
    (rest : (f ⟨⟩).Stalls) : (if p then Exec.fail kind >>= f else f ⟨⟩).Stalls :=
  ite (bind (.fail _) fun _ => rest) rest

theorem setIp (ip : Nat) : (Exec.setIp ip).Stalls := fun _ => trivial

theorem jump (distance : Nat) : (Exec.jump distance).Stalls := read .frame fun _ => setIp _

theorem jumpBack (distance : Nat) : (Exec.jumpBack distance).Stalls :=
  read .frame fun _ => guard (setIp _)

/-- The frame is pushed when nothing can go wrong any more. -/
theorem call (h : Handle) (count : Nat) : (Exec.call h count).Stalls :=
  read .get fun _ => read (.orFail _ _) fun _ => read .get fun _ => read (.orBroken _ _) fun _ =>
    guard (read .get fun _ => guard (read (.calleeSlot _) fun _ _ => trivial))

theorem construct (cls : Handle) (methods : Table) (slot count : Nat) :
    (Exec.construct cls methods slot count).Stalls := by
  refine read .get fun _ => bind (.allocate _) fun _ => bind (.setSlot _ _) fun _ => ?_
  split
  · exact call _ _
  · exact fail _
  · exact ite (fail _) (of_reads (.pure _))

theorem callValue (v : Value) (count : Nat) : (Exec.callValue v count).Stalls := by
  refine read (.orFail _ _) fun _ => read (.calleeSlot _) fun _ => read .get fun _ => ?_
  split
  · exact bind (.setSlot _ _) fun _ => call _ _
  · exact construct _ _ _ _
  · exact call _ _
  · exact read (.valuesAbove _) fun _ => read .get fun _ =>
      of_framed (.bind (.modify fun _ => rfl) fun _ => .push _)
  · exact fail _

theorem invokeFrom (cls : Handle) (key : Key) (count : Nat) :
    (Exec.invokeFrom cls key count).Stalls := by
  refine read (.method? _ _) fun _ => ?_
  split
  · exact call _ _
  · exact of_reads (.undefinedProperty _)

theorem invoke (key : Key) (count : Nat) : (Exec.invoke key count).Stalls := by
  refine read (.peek _) fun _ => read (.instance? _) fun _ => read (.orFail _ _) ?_
  rintro ⟨_, _, fields⟩
  simp only
  split
  · exact read (.calleeSlot _) fun _ => bind (.setSlot _ _) fun _ => callValue _ _
  · exact invokeFrom _ _ _

/-- Two instructions apart, an instruction that stops leaves the instruction pointer where reading
its operands has left it. -/
theorem perform {op : Opcode} (closure : op ≠ .closure) (ret : op ≠ .ret) (a b : Nat) :
    (Exec.perform op a b).Stalls := by
  cases op with
  | constant | longConstant => exact read (.constant _) fun _ => of_framed (.push _)
  | pushNil | pushTrue | pushFalse => exact of_framed (.push _)
  | pop => exact of_framed (.discard .pop)
  | getLocal => exact read (.getLocal _) fun _ => of_framed (.push _)
  | setLocal => exact read (.peek _) fun _ => of_framed (.setLocal _ _)
  | getGlobal => exact read (.name _) fun _ => of_framed (.getGlobal _)
  | defineGlobal => exact read (.name _) fun _ => of_framed (.defineGlobal _)
  | setGlobal => exact read (.name _) fun _ => of_framed (.setGlobal _)
  | getUpvalue => exact read (.getUpvalue _) fun _ => of_framed (.push _)
  | setUpvalue => exact of_framed (.setUpvalue _)
  | getProperty => exact read (.name _) fun _ => of_framed (.getProperty _)
  | setProperty => exact read (.name _) fun _ => of_framed (.setProperty _)
  | getSuper => exact read (.name _) fun _ => bind .popClass fun _ => of_framed (.bindMethod _ _)
  | equal => exact bind .pop fun _ => bind .pop fun _ => of_framed (.push _)
  | greater | less | subtract | multiply | divide => exact of_framed (.binary _)
  | add => exact of_framed .add
  | not => exact bind .pop fun _ => of_framed (.push _)
  | negate => exact of_framed .negate
  | print => exact of_framed .print
  | jump => exact jump _
  | jumpIfFalse => exact read (.peek _) fun _ => ite (jump _) (of_reads (.pure _))
  | loop => exact jumpBack _
  | call => exact read (.peek _) fun _ => callValue _ _
  | invoke => exact read (.name _) fun _ => invoke _ _
  | superInvoke => exact read (.name _) fun _ => bind .popClass fun _ => invokeFrom _ _ _
  | closeUpvalue => exact of_framed .closeTop
  | newClass => exact read (.name _) fun _ => bind (.allocate _) fun _ => of_framed (.push _)
  | inherit => exact of_framed .inherit
  | method => exact read (.name _) fun _ => of_framed (.defineMethod _)
  | closure => exact absurd rfl closure
  | ret => exact absurd rfl ret

end Stalls

end Exec

namespace Machine

/-- The offset after the last byte that is read of the next instruction, and of the captures that
belong to it, whether they are whole or cut off. -/
def decodedIp (m : Machine) : Nat :=
  (do
    let frame ← m.frames.head?
    let f ← m.heap.function? frame.function
    return f.chunk.decoded m.heap.constantFormat.captureCount frame.ip).getD 0

variable {m m' : Machine} {f : Frame} {function : Function} {kind : ErrorKind}

theorem decodedIp_eq (head : m.frames.head? = some f)
    (found : m.heap.function? f.function = some function) :
    m.decodedIp = function.chunk.decoded m.heap.constantFormat.captureCount f.ip := by
  simp only [decodedIp, head, found, Option.bind_eq_bind, Option.bind_some, Option.pure_def,
    Option.getD_some]

/-- If no closure is to be made, no captures are read. -/
theorem decodedIp_of_ne {instruction : Instruction} (next : m.next? = some instruction)
    (other : instruction.opcode ≠ .closure) : m.decodedIp = m.nextIp := by
  obtain ⟨f, function, head, found, read⟩ := exists_read_of_next? next
  simp only [decodedIp_eq head found, Chunk.decoded, read,
    Chunk.captureCount_of_ne _ _ instruction.operands other, Reader.captures]

theorem decodedIp_of_closure {instruction : Instruction} (head : m.frames.head? = some f)
    (found : m.heap.function? f.function = some function) (next : m.next? = some instruction)
    (closure : instruction.opcode = .closure) :
    m.decodedIp = (Reader.captures function.chunk.code
      (((function.chunk.constant? (instruction.operands.getD 0 0)).map
        m.heap.constantFormat.captureCount).getD 0) m.nextIp).2 := by
  obtain ⟨f', function', head', found', read⟩ := exists_read_of_next? next
  obtain rfl := Option.some.inj (head.symm.trans head')
  obtain rfl := Option.some.inj (found.symm.trans found')
  rw [decodedIp_eq head found, Chunk.decoded, read]
  obtain ⟨op, operands⟩ := instruction
  obtain rfl : op = .closure := closure
  -- The first of its two operands is the index of the function.
  obtain ⟨index, captures, rfl⟩ :=
    List.length_eq_two.mp (Reader.length_operands_of_instruction read)
  rfl

theorem decodedIp_of_next?_eq_none (next : m.next? = none) : m.decodedIp = m.nextIp := by
  unfold decodedIp nextIp
  cases head : m.frames.head? with
  | none => rfl
  | some f =>
    cases found : m.heap.function? f.function with
    | none => simp [found]
    | some function =>
      simp only [next?, head, found, Option.bind_eq_bind, Option.bind_some] at next
      simp only [found, Option.bind_eq_bind, Option.bind_some, Option.pure_def, Option.getD_some,
        Chunk.decoded]
      cases read : Reader.instruction function.chunk.code f.ip with
      | mk result ip =>
        rw [read] at next
        cases result with
        | error e => rfl
        | ok i => cases next

theorem withIp_of_head? (head : m.frames.head? = some f) : m.withIp f.ip = m := by
  obtain ⟨rest, frames⟩ := List.head?_eq_some_iff.mp head
  unfold withIp
  rw [frames, List.modifyHead_cons, ← frames]

end Machine

namespace Exec

open Machine

variable {m : Machine} {f : Frame} {function : Function}

/-- A closure that is not made leaves the instruction pointer after the captures that have been
read. -/
theorem makeClosure_stalls (head : m.frames.head? = some f)
    (found : m.heap.function? f.function = some function) (index : Nat) :
    (makeClosure index).Leaves m (fun _ _ => True) fun m' => m'.frames =
      (m.withIp (Reader.captures function.chunk.code (((function.chunk.constant? index).map
        m.heap.constantFormat.captureCount).getD 0) f.ip).2).frames := by
  generalize counts :
    ((function.chunk.constant? index).map m.heap.constantFormat.captureCount).getD 0 = count
  -- Without a function there are no captures to be read.
  have unread (none : count = 0) :
      m.frames = (m.withIp (Reader.captures function.chunk.code count f.ip).2).frames := by
    rw [none, Reader.captures, withIp_of_head? head]
  refine .bind (.bind (.of_eq (function_eq head found) (.orMalformed (fun v at_ => ?_)
    fun none => unread ?_)))
  · rw [at_, Option.map_some, Option.getD_some] at counts
    refine .get_bind (.bind (.orMalformed (fun callee is => ?_) fun none => unread ?_))
    · refine .bind ?_
      obtain ⟨h, handle, is⟩ := Option.bind_eq_some_iff.mp is
      obtain ⟨g, callee, is⟩ := Option.bind_eq_some_iff.mp is
      cases is
      have captures : g.captureCount = count := by
        rw [← counts]
        simp [constantFormat, handle, callee]
      have fetched := fetchCaptures_eq none head found g.captureCount
      rw [captures] at fetched ⊢
      unfold Leaves
      rw [fetched]
      cases Reader.captures function.chunk.code count f.ip with
      | mk captures next =>
        cases captures with
        | none => rfl
        | some captures =>
          have rest := Framed.bind (.allocate (.closure h #[] count)) fun closure =>
            .bind (.push (.object closure)) fun _ => .captureAll closure captures
          exact (rest (m.withIp next)).mono (fun _ _ _ => trivial) fun _ same => same
    · rw [← counts]
      cases handle : v.handle? with
      | none => simp [constantFormat, handle]
      | some h =>
        cases callee : m.heap.function? h with
        | none => simp [constantFormat, handle, callee]
        | some g => simp [handle, callee] at none
  · rw [← counts, none]
    rfl

end Exec

namespace Machine

variable {m m' : Machine} {f : Frame} {function : Function} {kind : ErrorKind}

/-- Where an instruction has failed, the innermost frame stands after the last byte that has been
read of it, and the others stand where they stood. -/
theorem Intact.frames_of_failed (intact : m.Intact .any) (regular : m.Regular)
    (ran : Exec.step none m = .error (.failed kind) m') :
    m'.frames = (m.withIp m.decodedIp).frames := by
  by_cases idle : m.frames = []
  · rw [step_of_frames_eq_nil idle] at ran
    cases ran
  cases next : m.next? with
  | none =>
    obtain ⟨_, events, eq⟩ := intact.step_of_next?_eq_none idle next
    cases eq.symm.trans ran
    rw [decodedIp_of_next?_eq_none next]
    rfl
  | some instruction =>
    obtain ⟨events, eq⟩ := Exec.step_eq_nextIp none next
    have ran := eq.symm.trans ran
    have fetched : (m.fetched events).frames = (m.withIp m.nextIp).frames := rfl
    by_cases closure : instruction.opcode = .closure
    · obtain ⟨f, head⟩ := exists_head? idle
      obtain ⟨function, found, -⟩ :=
        function?_of_kind? (intact.functions f (List.mem_of_mem_head? head))
      rw [closure] at ran
      have stalls := Exec.makeClosure_stalls (m := m.fetched events)
        (Exec.head?_fetched head events) found (instruction.operands.getD 0 0)
      rw [decodedIp_of_closure head found next closure, stalls.of_error ran]
      exact m.frames_withIp_withIp _ _
    · rw [decodedIp_of_ne next closure, ← fetched]
      by_cases ret : instruction.opcode = .ret
      · rw [ret] at ran
        obtain ⟨f, head⟩ := exists_head? idle
        rcases Exec.returnValue_cases (regular.fetched events) (Exec.head?_fetched head events) with
          failed | ⟨_, -, returned | ⟨v, returned⟩⟩
        · cases failed.symm.trans ran
          rfl
        · cases returned.symm.trans ran
        · cases returned.symm.trans ran
      · exact (Exec.Stalls.perform closure ret _ _ _).of_error ran

/-! ## What a step does to the frames -/

/-- A step moves the innermost frame, or it pushes one because the instruction is a call, or it
leaves one. -/
inductive Shifts (m m' : Machine) : Prop
  | stay (ip : Nat) (frames : m'.frames = (m.withIp ip).frames)
  | push (f : Frame) (i : Instruction) (next : m.next? = some i) (calls : i.opcode.calls)
    (frames : m'.frames = f :: (m.withIp m.nextIp).frames)
  | leave (frames : m'.frames = m.frames.tail)

theorem Intact.shifts (intact : m.Intact .any) (regular : m.Regular)
    (ran : Exec.step none m = .ok ⟨⟩ m') : m.Shifts m' := by
  have framed := framed_of_step ran
  cases next : m.next? with
  | none =>
    obtain ⟨_, _, eq⟩ : ∃ kind events, Exec.step none m =
        .error (.failed kind) (m.fetched events) := intact.step_of_next?_eq_none framed next
    cases eq.symm.trans ran
  | some i =>
    obtain ⟨events, eq⟩ := Exec.step_eq_nextIp none next
    have ran := eq.symm.trans ran
    have regular := regular.fetched events
    have stays {a b : Nat} (stays : i.opcode.stays)
        (ran : Exec.perform i.opcode a b none (m.fetched events) = .ok ⟨⟩ m') : m.Shifts m' := by
      have rooted := (Exec.perform_leaves (intact.fetched events) regular stays a b).of_ok ran
      obtain ⟨ip, frames⟩ := rooted.frames
      exact .stay ip (frames.trans (m.frames_withIp_withIp _ _))
    cases op : i.opcode with
    | call | invoke | superInvoke =>
      have calls : i.opcode.calls := by rw [op]; rfl
      obtain frames | ⟨f, frames, -⟩ :=
        ((Exec.calls_leaves regular calls _ _).of_ok ran).frames
      · exact .stay m.nextIp frames
      · exact .push f i next calls frames
    | closeUpvalue =>
      rw [op] at ran
      exact .stay m.nextIp ((Exec.Framed.closeTop (m.fetched events)).of_ok ran)
    | ret =>
      rw [op] at ran
      obtain ⟨f, head⟩ := exists_head? framed
      rcases Exec.returnValue_cases regular (Exec.head?_fetched head events) with
        failed | ⟨m'', frames, returned | ⟨v, returned⟩⟩
      · cases failed.symm.trans ran
      · cases returned.symm.trans ran
        exact .leave (frames.trans List.tail_modifyHead)
      · cases returned.symm.trans ran
    | _ => exact stays (by rw [op]; rfl) ran

/-! ## Functions stay as they are -/

/-- No instruction changes a function, nor does a new one take the place of an old one. -/
theorem Turn.function? {op : Option Opcode} {h : Handle} (turn : m.Turn op m')
    (regular : m.Regular) (old : h.index < m.heap.cells.size)
    (found : m'.heap.function? h = some function) : m.heap.function? h = some function := by
  have clean := regular.heap.arises.clean
  have retained {after : Heap} (retains : m.heap.Retains after)
      (found : after.get? h = some (.function function)) : m.heap.function? h = some function := by
    rw [Heap.function?, retains.same h _ old found]
  -- What has become a function by a change in place was the same function before.
  have modified {k : Handle} {g : Object → Object}
      (kept : ∀ object, g object = .function function → object = .function function)
      (found : (m.heap.modify k g).get? h = some (.function function)) :
      m.heap.function? h = some function := by
    rw [get?_modify] at found
    split at found
    · obtain ⟨object, before, become⟩ := Option.map_eq_some_iff.mp found
      rw [Heap.function?, before, kept object become]
    · rw [Heap.function?, found]
  have found := get?_of_function? found
  cases turn with
  | allocate object extra => exact retained (allocated_allocate clean _ _).retains found
  | intern text extra => exact retained (retains_intern regular.heap.canonical clean _ _) found
  | setUpvalue _ u' =>
    refine modified (g := fun _ => .upvalue u') (fun _ become => ?_) found
    cases become
  | pushCaptured k upvalue =>
    refine modified (fun object become => ?_) found
    cases object <;> first | exact become | cases become
  | setFields k fields =>
    refine modified (fun object become => ?_) ((get?_recharge ..).symm.trans found)
    cases object <;> first | exact become | cases become
  | setMethods k methods =>
    refine modified (fun object become => ?_) ((get?_recharge ..).symm.trans found)
    cases object <;> first | exact become | cases become
  | push | stack | enter | frames | globals | openUpvalues | sink | events =>
    rw [Heap.function?, found]

theorem Turns.function? {op : Option Opcode} {h : Handle} (turns : m.Turns op m')
    (regular : m.Regular) (old : h.index < m.heap.cells.size)
    (found : m'.heap.function? h = some function) : m.heap.function? h = some function := by
  induction turns with
  | refl => exact found
  | tail turns turn ih =>
    have changes := Turns.changes turns
    exact ih (turn.function? (changes.regular regular) (old.trans_le (changes.grown regular)) found)

/-! ## Calls and the frames they create -/

/-- A step leads from one machine to the other. -/
def Goes (m m' : Machine) : Prop := Exec.step none m = .ok ⟨⟩ m'

/-- Steps lead from one machine to the other. -/
def Reaches : Machine → Machine → Prop := Relation.ReflTransGen Goes

/-- The next instruction of the first machine is a call. It has created the frame of the other
machine that has this depth, where the outermost frame has depth one: steps have led from one to the
other, and from the call on there have always been that many frames at least. -/
structure Creates (s m : Machine) (depth : Nat) : Prop where
  calls : ∃ i, s.next? = some i ∧ i.opcode.calls
  below : s.frames.length + 1 = depth
  kept : ∃ s', s.Goes s' ∧ s'.frames.length = depth ∧
    Relation.ReflTransGen (fun a b => a.Goes b ∧ depth ≤ b.frames.length) s' m

/-- In a run from the first machine to the second one, the next instruction of the third one is what
a frame of the second one is about: of the innermost frame it is the instruction that comes next
itself, and of every further one the call that has created the frame above. Frames are counted from
the innermost one. -/
inductive Pending (m₁ m : Machine) : Nat → Machine → Prop
  | here : Pending m₁ m 0 m
  | call {i : Nat} {s : Machine} (reaches : m₁.Reaches s)
    (creates : s.Creates m (m.frames.length - i)) : Pending m₁ m (i + 1) s

/-- The frame is the innermost one of the first machine, with the instruction pointer after what is
read of its next instruction. It runs the same function in the other machine. -/
def Marks (s m : Machine) (f : Frame) : Prop :=
  ∃ g function, s.frames.head? = some g ∧ f = { g with ip := s.decodedIp } ∧
    s.heap.function? f.function = some function ∧ m.heap.function? f.function = some function

variable {m₀ m₁ s : Machine} {h : Handle} {depth i : Nat}

theorem Occurs.reaches (occurs : m.Occurs) (reaches : m.Reaches m') : m'.Occurs := by
  induction reaches with
  | refl => exact occurs
  | tail _ goes ih => exact ih.step goes

/-- Steps are taken one after the other. -/
theorem exists_steps_of_reaches (reaches : m.Reaches m') : ∃ n, m.steps n = (none, m') := by
  induction reaches with
  | refl => exact ⟨0, rfl⟩
  | tail _ goes ih =>
    obtain ⟨n, ran⟩ := ih
    exact ⟨n + 1, (steps_add ran 1).trans (steps_one goes)⟩

theorem Creates.step (creates : s.Creates m depth) (goes : m.Goes m')
    (deep : depth ≤ m'.frames.length) : s.Creates m' depth := by
  obtain ⟨s', called, same, kept⟩ := creates.kept
  exact ⟨creates.calls, creates.below, s', called, same, kept.tail ⟨goes, deep⟩⟩

/-- The function of a frame is still the same after a step. -/
theorem Occurs.function?_eq (occurs : m.Occurs) {op : Option Opcode} (turns : m.Turns op m')
    (intact : m'.Intact .any) (mem : f ∈ m'.frames)
    (found : m.heap.function? f.function = some function) :
    m'.heap.function? f.function = some function := by
  obtain ⟨function', found', -⟩ := function?_of_kind? (intact.functions f mem)
  have old := lt_size_of_contains (contains_of_get? (get?_of_function? found))
  have same := turns.function? occurs.regular old found'
  rwa [Option.some.inj (found.symm.trans same)]

theorem Marks.turns (marks : s.Marks m f) (occurs : m.Occurs) {op : Option Opcode}
    (turns : m.Turns op m') (intact : m'.Intact .any) (mem : f ∈ m'.frames) : s.Marks m' f := by
  obtain ⟨g, function, head, eq, found, found'⟩ := marks
  exact ⟨g, function, head, eq, found, occurs.function?_eq turns intact mem found'⟩

/-- The innermost frame is marked by the machine itself. -/
theorem Occurs.marks (occurs : m.Occurs) {op : Option Opcode} (turns : m.Turns op m')
    (intact : m'.Intact .any) {g : Frame} (head : m.frames.head? = some g)
    (mem : { g with ip := m.decodedIp } ∈ m'.frames) :
    m.Marks m' { g with ip := m.decodedIp } := by
  obtain ⟨function, found, -⟩ :=
    function?_of_kind? (occurs.intact.functions g (List.mem_of_mem_head? head))
  exact ⟨g, function, head, rfl, found,
    occurs.function?_eq (f := { g with ip := m.decodedIp }) turns intact mem found⟩

theorem frames_withIp_succ (m : Machine) (ip i : Nat) :
    (m.withIp ip).frames[i + 1]? = m.frames[i + 1]? := by
  unfold withIp
  cases m.frames <;> rfl

/-- Below the innermost frame, every frame stands after the call that has created the frame above
it. -/
theorem Occurs.pending (occurs : m₁.Occurs) (single : m₁.frames.tail = [])
    (reaches : m₁.Reaches m) (at_ : m.frames[i + 1]? = some f) :
    ∃ s, m₁.Pending m (i + 1) s ∧ s.Marks m f := by
  induction reaches generalizing i f with
  | refl =>
    rw [← List.getElem?_tail, single] at at_
    cases at_
  | @tail m m' reaches goes ih =>
    have here := occurs.reaches reaches
    have intact := (here.step goes).intact
    have turns := (Exec.Leads.step none m).of_ok goes
    have mem := List.mem_of_getElem? at_
    have inside := (List.getElem?_eq_some_iff.mp at_).1
    -- A frame that has been suspended before is so still.
    have still {j : Nat} (same : m.frames[j + 1]? = some f)
        (depth : m.frames.length - j = m'.frames.length - i) :
        ∃ s, m₁.Pending m' (i + 1) s ∧ s.Marks m' f := by
      obtain ⟨s, pending, marks⟩ := ih same
      cases pending with
      | call reaches creates =>
        rw [depth] at creates
        exact ⟨s, .call reaches (creates.step goes (Nat.sub_le _ _)),
          marks.turns here turns intact mem⟩
    cases here.intact.shifts here.regular goes with
    | stay ip frames =>
      refine still (j := i) ?_ ?_
      · rw [← frames_withIp_succ m ip, ← frames, at_]
      · rw [frames, withIp, List.length_modifyHead]
    | leave frames =>
      refine still (j := i + 1) ?_ ?_
      · rw [← List.getElem?_tail, ← frames, at_]
      · rw [frames, List.length_tail]
        omega
    | push g instruction next calls frames =>
      have length : m'.frames.length = m.frames.length + 1 := by
        rw [frames, List.length_cons, withIp, List.length_modifyHead]
      rw [frames, List.getElem?_cons_succ] at at_
      cases i with
      | succ j =>
        refine still (j := j) ?_ ?_
        · rw [← frames_withIp_succ m m.nextIp, at_]
        · omega
      -- The frame that has called is suspended from now on.
      | zero =>
        obtain ⟨caller, head⟩ := exists_head? (framed_of_step goes)
        have other : instruction.opcode ≠ .closure := fun closure => by
          rw [closure] at calls
          cases calls
        have pointer := decodedIp_of_ne next other
        obtain rfl : { caller with ip := m.decodedIp } = f := by
          rw [← List.head?_eq_getElem?, Exec.head?_withIp head] at at_
          rw [pointer, Option.some.inj at_]
        have creates : m.Creates m' m'.frames.length :=
          ⟨⟨instruction, next, calls⟩, length.symm, m', goes, rfl, .refl⟩
        exact ⟨m, .call reaches creates, here.marks turns intact head mem⟩

/-! ## Entries of backtraces -/

/-- The byte at the instruction pointer of the innermost frame. -/
def nextByte? (m : Machine) : Option UInt8 := do
  let frame ← m.frames.head?
  let f ← m.heap.function? frame.function
  f.chunk.code[frame.ip]?

/-- Where there is an instruction there is a byte. -/
theorem exists_nextByte?_of_next? {instruction : Instruction} (next : m.next? = some instruction) :
    ∃ byte, m.nextByte? = some byte := by
  obtain ⟨f, function, head, found, read⟩ := exists_read_of_next? next
  simp only [nextByte?, head, found, Option.bind_eq_bind, Option.bind_some]
  cases present : function.chunk.code[f.ip]? with
  | none =>
    rw [Reader.instruction, present] at read
    cases read
  | some byte => exact ⟨byte, rfl⟩

/-- There is one entry for each frame. -/
theorem entries_of_backtrace? {backtrace : List BacktraceEntry}
    (traced : m.backtrace? = some backtrace) : backtrace.length = m.frames.length ∧
      ∀ (i : Nat) entry, backtrace[i]? = some entry →
        ∃ f, m.frames[i]? = some f ∧ m.backtraceEntry? f = some entry := by
  unfold backtrace? at traced
  generalize m.frames = frames at traced ⊢
  induction frames generalizing backtrace with
  | nil =>
    obtain rfl := Option.some.inj traced
    exact ⟨rfl, fun i entry at_ => by simp at at_⟩
  | cons f rest ih =>
    rw [List.mapM_cons] at traced
    obtain ⟨first, shown, later⟩ := Option.bind_eq_some_iff.mp traced
    obtain ⟨others, below, eq⟩ := Option.bind_eq_some_iff.mp later
    obtain rfl := Option.some.inj eq
    obtain ⟨length, entries⟩ := ih below
    refine ⟨by rw [List.length_cons, List.length_cons, length], fun i entry at_ => ?_⟩
    cases i with
    | zero =>
      obtain rfl := Option.some.inj at_
      exact ⟨f, rfl, shown⟩
    | succ i => exact entries i entry at_

/-- The frame of an entry that shows the last byte that is read of an instruction. -/
theorem Marks.shown (marks : s.Marks m f) {byte : UInt8} (present : s.nextByte? = some byte)
    {entry : BacktraceEntry} (shown : m.backtraceEntry? f = some entry) :
    ∃ function start, m.heap.function? f.function = some function ∧
      entry.function = function.name.bind m.heap.text? ∧ s.Faces function.chunk start ∧
      start < s.decodedIp ∧ s.decodedIp ≤ function.chunk.size ∧ f.ip = s.decodedIp ∧
      entry.line = (function.chunk.line? (s.decodedIp - 1)).getD 0 := by
  obtain ⟨g, function, head, rfl, found, found'⟩ := marks
  simp only [nextByte?, head, Option.bind_eq_bind, Option.bind_some] at present
  obtain ⟨same, at_, present⟩ := Option.bind_eq_some_iff.mp present
  obtain rfl := Option.some.inj (found.symm.trans at_)
  have inside := (Array.getElem?_eq_some_iff.mp present).1
  have bounds : g.ip < s.decodedIp ∧ s.decodedIp ≤ function.chunk.size := by
    rw [decodedIp_eq head found]
    exact Chunk.decoded_bounds inside
  simp only [ backtraceEntry?, found', Option.bind_eq_bind, Option.bind_some] at shown
  obtain rfl := Option.some.inj shown
  exact ⟨function, g.ip, found', rfl, ⟨g, function, head, found, rfl, rfl⟩, bounds.1, bounds.2, rfl,
    rfl⟩

/-- Backtraces name the right places. When a run has failed at an instruction of which at least the
opcode has been read, its outcome is an error with one entry for each frame that is active, the
innermost first. Each entry has the name of the function of its frame, unless this is no live
string, and the line of the last byte that has been read of the instruction which the frame is
about: for the innermost frame this is the instruction that has failed, and for every further one
the call that has created the frame above it. If all bytes of this instruction share a line, as they
do if they have been emitted together, then the entry shows this line. -/
theorem Occurs.backtraces_placed (occurs : m₀.Occurs) (rest : m₀.AtRest)
    (entered : Machine.enter h none m₀ = .ok ⟨⟩ m₁) (reaches : m₁.Reaches m)
    (ran : Exec.step none m = .error (.failed kind) m') {byte : UInt8}
    (fetched : m.nextByte? = some byte) :
    ∃ n backtrace,
      (∀ bound, n < bound → (m₀.runFunction bound h).1 = .runtimeError ⟨kind, backtrace⟩) ∧
      m'.frames = (m.withIp m.decodedIp).frames ∧ backtrace.length = m'.frames.length ∧
      (∀ (i : Nat) entry, backtrace[i]? = some entry → ∃ s f function start,
        m₁.Pending m i s ∧ m'.frames[i]? = some f ∧
        m'.heap.function? f.function = some function ∧
        entry.function = function.name.bind m'.heap.text? ∧
        s.Faces function.chunk start ∧ start < s.decodedIp ∧ s.decodedIp ≤ function.chunk.size ∧
        f.ip = s.decodedIp ∧
        entry.line = (function.chunk.line? (s.decodedIp - 1)).getD 0 ∧
        ∀ line, (∀ offset, start ≤ offset → offset < s.decodedIp →
          function.chunk.line? offset = some line) → entry.line = line) ∧
      ∀ (c : Chunk Value) op operands line, c.lines.size = c.size → ∀ offset, c.size ≤ offset →
        offset < (c.emit op operands line).size →
          (c.emit op operands line).line? offset = some line := by
  have begun := occurs.enter h entered
  have here := begun.reaches reaches
  have intact := here.intact.of_stop ran
  have turns := (Exec.Leads.step none m).of_error ran
  have frames := here.intact.frames_of_failed here.regular ran
  obtain ⟨first, framed, -⟩ := (m₀.enter_pushes h).of_ok entered
  have single : m₁.frames.tail = [] := by rw [framed, List.tail_cons, rest.frames]
  obtain ⟨backtrace, traced⟩ := intact.toSound.exists_backtrace
  obtain ⟨length, entries⟩ := entries_of_backtrace? traced
  obtain ⟨n, steps⟩ := exists_steps_of_reaches reaches
  refine ⟨n, backtrace, fun bound more => ?_, frames, length, fun i entry at_ => ?_,
    fun c op operands line lined offset => Chunk.line?_emit lined op operands line⟩
  · have stopped := (steps_add steps 1).trans (steps_one_of_error ran)
    simp only [Machine.runFunction, entered, steps_of_stopped stopped more, conclude, traced]
  · obtain ⟨f, active, shown⟩ := entries i entry at_
    have mem := List.mem_of_getElem? active
    have marked : ∃ s byte, m₁.Pending m i s ∧ s.nextByte? = some byte ∧ s.Marks m' f := by
      rw [frames] at active
      cases i with
      | zero =>
        rw [← List.head?_eq_getElem?] at active
        have idle : m.frames ≠ [] := fun idle => by simp [withIp, idle] at active
        obtain ⟨g, head⟩ := exists_head? idle
        obtain rfl := Option.some.inj ((Exec.head?_withIp head _).symm.trans active)
        exact ⟨m, byte, .here, fetched, here.marks turns intact head mem⟩
      | succ i =>
        rw [frames_withIp_succ] at active
        obtain ⟨s, pending, marks⟩ := begun.pending single reaches active
        cases pending with
        | call reaches creates =>
          obtain ⟨instruction, next, -⟩ := creates.calls
          obtain ⟨byte, present⟩ := exists_nextByte?_of_next? next
          exact ⟨s, byte, .call reaches creates, present, marks.turns here turns intact mem⟩
    obtain ⟨s, byte, pending, present, marks⟩ := marked
    obtain ⟨function, start, found, name, faces, lt, le, ip, line⟩ := marks.shown present shown
    refine ⟨s, f, function, start, pending, active, found, name, faces, lt, le, ip, line,
      fun shared same => ?_⟩
    rw [line, same _ (Nat.le_sub_one_of_lt lt) (Nat.sub_one_lt_of_lt lt), Option.getD_some]

/-- A machine with a script that calls a function, which negates a truth value. The two bytes of the
call are on different lines. -/
def troubled : Machine :=
  let (name, m) := (start {} default .zero).intern "inner" []
  let inner : Chunk Value := ⟨#[Opcode.pushTrue.byte, Opcode.negate.byte], #[7, 8], #[.nil]⟩
  let (g, m) := m.allocate (.function ⟨some name, 0, 0, inner⟩) []
  let code := #[Opcode.closure.byte, 1, Opcode.call.byte, 0, Opcode.ret.byte]
  let script : Chunk Value := ⟨code, #[2, 2, 3, 4, 5], #[.nil, .object g]⟩
  (m.allocate (.function (.script script)) []).2

/-- The function is about to negate the truth value. -/
def troubledCall : Machine :=
  (((troubled.left (enter ⟨5⟩) none).left Exec.step none).left Exec.step none).left Exec.step none

/-- The backtrace shows the line of the negation and that of the last byte of the call. -/
theorem backtraces_placed_troubled :
    troubled.Occurs ∧ troubled.AtRest ∧
    Exec.step none troubledCall =
      .error (.failed .operandMustBeNumber) (troubledCall.left Exec.step none) ∧
    troubledCall.nextByte? = some Opcode.negate.byte ∧
    ∃ n backtrace, (∀ bound, n < bound → (troubled.runFunction bound ⟨5⟩).1 =
        .runtimeError ⟨.operandMustBeNumber, backtrace⟩) ∧
      backtrace.map (·.line) = [8, 4] ∧ backtrace.map (·.function) = [some "inner", none] := by
  have occurs : troubled.Occurs :=
    (((Occurs.start _ _ _).host (.intern "inner" [])).host (.function _ [])).host (.function _ [])
  have rest : troubled.AtRest := ⟨by decide +kernel, by decide +kernel, by decide +kernel⟩
  have entered : enter ⟨5⟩ none troubled = .ok ⟨⟩ (troubled.left (enter ⟨5⟩) none) :=
    eq_ok_of_stopped? (by decide +kernel)
  have reaches : (troubled.left (enter ⟨5⟩) none).Reaches troubledCall := by
    refine .tail (.tail (.tail .refl (eq_ok_of_stopped? ?_)) (eq_ok_of_stopped? ?_))
      (eq_ok_of_stopped? ?_)
    all_goals decide +kernel
  have fails : Exec.step none troubledCall =
      .error (.failed .operandMustBeNumber) (troubledCall.left Exec.step none) :=
    eq_error_of_stopped? (by decide +kernel)
  have fetched : troubledCall.nextByte? = some Opcode.negate.byte := by decide +kernel
  refine ⟨occurs, rest, fails, fetched, ?_⟩
  obtain ⟨n, backtrace, outcome, -, length, entries, -⟩ :=
    occurs.backtraces_placed rest entered reaches fails fetched
  let after := troubledCall.left Exec.step none
  have shows (i : Nat) (entry : BacktraceEntry) (line : Nat) (name : Option String)
      (at_ : backtrace[i]? = some entry) (place : (after.frames[i]?.bind fun f =>
        (after.heap.function? f.function).map fun g =>
          (g.chunk.line? (f.ip - 1), g.name.bind after.heap.text?)) = some (some line, name)) :
      entry.line = line ∧ entry.function = name := by
    obtain ⟨s, f, g, start, -, active, found, named, -, -, -, ip, lined, -⟩ := entries i entry at_
    rw [active, Option.bind_some, found, Option.map_some] at place
    obtain ⟨same, same'⟩ := Prod.mk.inj (Option.some.inj place)
    exact ⟨by rw [lined, ← ip, same, Option.getD_some], named.trans same'⟩
  have two : after.frames.length = 2 := by decide +kernel
  obtain ⟨inner, outer, rfl⟩ := List.length_eq_two.mp (length.trans two)
  obtain ⟨line, name⟩ := shows 0 inner 8 (some "inner") rfl (by decide +kernel)
  obtain ⟨line', name'⟩ := shows 1 outer 4 none rfl (by decide +kernel)
  refine ⟨n, _, outcome, ?_, ?_⟩
  · simp [line, line']
  · simp [name, name']

end Machine

end ScriptMachine
