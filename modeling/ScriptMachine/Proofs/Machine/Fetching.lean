/-
# Listings show what the machine fetches

The machine fetches an instruction, and if this makes a closure of a function,
it goes on to fetch the captures. What it fetches is the item that stands at
the instruction pointer; where the item ends, the instruction pointer stands
afterwards. Listings keep to the same items. So for every code whatsoever, a
listing goes on exactly where the machine does, it ends in the mark of
truncation exactly if the machine cannot fetch, and it shows an unknown opcode
exactly if the machine rejects the byte.

## Main definitions

* `Exec.fetchItem`: fetch an instruction, and the captures that belong to it.

## Main results

* `Exec.fetchItem_eq`: the machine fetches the item at the instruction pointer.
* `Machine.listing_agrees`: listings agree with what the machine fetches.
-/

import ScriptMachine.Proofs.Bytecode.Boundaries
import ScriptMachine.Proofs.Machine.Steady

namespace ScriptMachine

/-- The function that an instruction makes a closure of, if its constant is one. -/
def Machine.closed? (m : Machine) (c : Chunk Value) (i : Instruction) : Option Function :=
  (i.closed?.bind c.constant?).bind fun value => value.handle?.bind m.heap.function?

/-- As many captures follow an instruction as the function has that it makes a closure of. -/
theorem Machine.captureCount_eq (m : Machine) (c : Chunk Value) (i : Instruction) :
    c.captureCount m.heap.constantFormat.captureCount i =
      ((m.closed? c i).map (·.captureCount)).getD 0 := by
  unfold Chunk.captureCount closed?
  cases i.closed?.bind c.constant? <;> rfl

/-- Of two moves of the instruction pointer the second one counts. -/
theorem Machine.withIp_withIp (m : Machine) (ip ip' : Nat) :
    (m.withIp ip).withIp ip' = m.withIp ip' :=
  congrArg (fun frames => { m with frames }) (m.frames_withIp_withIp ip ip')

namespace Exec

/-- Fetch an instruction. If it makes a closure of a function, fetch the captures as well. -/
def fetchItem : Exec Chunk.Item := do
  let instruction ← fetch
  match (← get).closed? (← function).chunk instruction with
  | some f => return ⟨instruction, ← fetchCaptures f.captureCount⟩
  | none => return ⟨instruction, []⟩

variable {m : Machine} {f : Frame} {function : Function} {watch : Option Handle}
  (head : m.frames.head? = some f) (found : m.heap.function? f.function = some function)
include head found

variable (watch) in
/-- The instruction pointer is moved past the captures that are read. -/
theorem fetchCaptures_eq (count : Nat) :
    fetchCaptures count watch m = match Reader.captures function.chunk.code count f.ip with
      | (some captures, next) => .ok captures (m.withIp next)
      | (none, next) => .error (.failed (.malformed .truncatedCaptures)) (m.withIp next) := by
  apply (bind_eq (function_eq head found) _).trans
  apply (bind_eq (frame_eq head) _).trans
  cases Reader.captures function.chunk.code count f.ip with
  | mk captures next => cases captures <;> rfl

variable (watch) in
/-- What is fetched is the item at the instruction pointer, which is moved past it. Where there is
no item, fetching fails. -/
theorem fetchItem_eq :
    match function.chunk.item? m.heap.constantFormat.captureCount f.ip with
    | some (item, next) => fetchItem watch m = .ok item (m.withIp next)
    | none => ∃ kind m', fetchItem watch m = .error (.failed kind) m' := by
  have fetched := fetch_eq watch head found
  simp only [Chunk.item?]
  cases read : Reader.instruction function.chunk.code f.ip with
  | mk result ip =>
    have pointer : m.nextIp = ip := by
      simp [Machine.nextIp, head, found, read]
    rw [read, pointer] at fetched
    cases result with
    | error e =>
      refine ⟨.malformed (.fetch e), m.withIp ip, ?_⟩
      exact bind_error fetched _
    | ok instruction =>
      have head' := head?_withIp head ip
      have captured := fetchCaptures_eq watch (m := m.withIp ip) head' found
      have after : fetchItem watch m = (match m.closed? function.chunk instruction with
          | some g => (return ⟨instruction, ← fetchCaptures g.captureCount⟩)
          | none => return ⟨instruction, []⟩ : Exec Chunk.Item) watch (m.withIp ip) :=
        (bind_eq fetched _).trans (bind_eq (function_eq (m := m.withIp ip) head' found) _)
      simp only [after, m.captureCount_eq]
      cases m.closed? function.chunk instruction with
      | none => rfl
      | some g =>
        have captured := captured g.captureCount
        simp only [Option.map_some, Option.getD_some] at captured ⊢
        cases read : Reader.captures function.chunk.code g.captureCount ip with
        | mk captures next =>
          rw [read] at captured
          cases captures with
          | some captures =>
            simp only [m.withIp_withIp] at captured
            exact bind_eq captured _
          | none =>
            simp only [m.withIp_withIp] at captured
            refine ⟨.malformed .truncatedCaptures, m.withIp next, ?_⟩
            exact bind_error captured _

section Present

variable {byte : UInt8} (present : function.chunk.code[f.ip]? = some byte)
include present

/-- Where the machine fetches, the listing goes on at the instruction pointer that this leaves. -/
theorem ip_of_fetchItem {item : Chunk.Item} {m' : Machine}
    (ran : fetchItem watch m = .ok item m') : m'.frames.head?.map (·.ip) =
      some (Listing.instruction m.heap.constantFormat function.chunk f.ip).2 := by
  have fetched := fetchItem_eq watch head found
  cases read : function.chunk.item? m.heap.constantFormat.captureCount f.ip with
  | none =>
    rw [read, ran] at fetched
    obtain ⟨kind, m', same⟩ := fetched
    exact nomatch same
  | some result =>
    obtain ⟨item', next⟩ := result
    rw [read, ran] at fetched
    obtain ⟨rfl, rfl⟩ := EStateM.Result.ok.inj fetched
    rw [head?_withIp head next, Option.map_some]
    cases known : Opcode.ofByte? byte with
    | none => simp [Chunk.item?, Reader.instruction, present, known] at read
    | some op =>
      have agree := Listing.instruction_of_opcode present known m.heap.constantFormat
      rw [read] at agree
      rw [agree.1]

/-- The listing of an opcode is cut off exactly if fetching fails. -/
theorem cutOff_iff {op : Opcode} (known : Opcode.ofByte? byte = some op) :
    Listing.CutOff (Listing.instruction m.heap.constantFormat function.chunk f.ip).1 ↔
      ∃ kind m', fetchItem watch m = .error (.failed kind) m' := by
  have fetched := fetchItem_eq watch head found
  have agree := Listing.instruction_of_opcode present known m.heap.constantFormat
  cases read : function.chunk.item? m.heap.constantFormat.captureCount f.ip with
  | none =>
    rw [read] at fetched agree
    exact iff_of_true agree.2 fetched
  | some result =>
    obtain ⟨item, next⟩ := result
    rw [read] at fetched agree
    refine iff_of_false agree.2 ?_
    rintro ⟨kind, m', failed⟩
    rw [fetched] at failed
    exact nomatch failed

/-- A byte is rejected exactly if it is no opcode. -/
theorem rejected_iff : Opcode.ofByte? byte = none ↔
    ∃ m', fetch watch m = .error (.failed (.malformed (.fetch (.unknownOpcode byte)))) m' := by
  rw [fetch_eq watch head found]
  cases known : Opcode.ofByte? byte with
  | none => simp [Reader.instruction, present, known]
  | some op =>
    simp only [Reader.instruction, present, known, reduceCtorEq, false_iff]
    cases Reader.operands function.chunk.code op.operands (f.ip + 1) with
    | mk values next => cases values <;> simp

end Present

end Exec

namespace Machine

/-- Listings agree with the machine, for every code. A listing moves on at each instruction and
stays inside of the code; so it ends, however many instructions it may show, and every byte belongs
to exactly one of them. The listing of a chunk is its heading and these instructions. Where the
machine fetches, the listing goes on at the instruction pointer that this leaves. For an opcode, it
ends in the mark of truncation exactly if fetching fails. It shows an unknown opcode exactly if the
byte is rejected. -/
theorem listing_agrees {V : Type} (format : ConstantFormat V) (c : Chunk V) :
    (∀ offset < c.size, offset < (Listing.instruction format c offset).2 ∧
      (Listing.instruction format c offset).2 ≤ c.size) ∧
    (∀ bound, c.size ≤ bound → Listing.instructions format c bound 0 =
      (Listing.starts format c c.size 0).map fun start =>
        (Listing.instruction format c start).1) ∧
    (∀ name, Listing.chunk format c name = s!"== {name} ==\n" ++ String.join
      ((Listing.starts format c c.size 0).map fun start =>
        (Listing.instruction format c start).1 ++ "\n")) ∧
    (∀ i < c.size, ∃! start, start ∈ Listing.starts format c c.size 0 ∧ start ≤ i ∧
      i < (Listing.instruction format c start).2) ∧
    ∀ (m : Machine) (watch : Option Handle) (f : Frame) (function : Function) (byte : UInt8),
      m.frames.head? = some f → m.heap.function? f.function = some function →
      function.chunk.code[f.ip]? = some byte →
      (∀ item m', Exec.fetchItem watch m = .ok item m' → m'.frames.head?.map (·.ip) =
        some (Listing.instruction m.heap.constantFormat function.chunk f.ip).2) ∧
      (∀ op, Opcode.ofByte? byte = some op →
        (Listing.CutOff (Listing.instruction m.heap.constantFormat function.chunk f.ip).1 ↔
          ∃ kind m', Exec.fetchItem watch m = .error (.failed kind) m')) ∧
      ((Listing.instruction m.heap.constantFormat function.chunk f.ip).1 =
          Listing.columns function.chunk f.ip ++ s!"Unknown opcode {byte}" ↔
        ∃ m', Exec.fetch watch m =
          .error (.failed (.malformed (.fetch (.unknownOpcode byte)))) m') := by
  refine ⟨fun _ => Listing.next_bounds format, fun bound enough => ?_, Listing.chunk_eq format c,
    fun i inside => Listing.existsUnique_start format c (Nat.sub_le ..) (Nat.zero_le i) inside,
    fun m watch f function byte head found present => ⟨fun item m' =>
      Exec.ip_of_fetchItem head found present, fun op => Exec.cutOff_iff head found present, ?_⟩⟩
  · rw [Listing.instructions_eq_map_starts,
      Listing.starts_eq_of_le format c (Nat.le_trans (Nat.sub_le ..) enough) (Nat.sub_le ..)]
  · rw [Listing.unknown_iff m.heap.constantFormat present, Exec.rejected_iff head found present]

/-- A machine that is about to make a closure over one captured variable. Of the two bytes of its
capture only the first one is there. -/
def truncating : Machine :=
  let m := start {} default .zero
  let (g, m) := m.allocate (.function ⟨none, 0, 1, default⟩) []
  let script : Chunk Value := ⟨#[Opcode.closure.byte, 1, 1], #[7, 7, 7], #[.nil, .object g]⟩
  let (function, m) := m.allocate (.function (.script script)) []
  m.left (enter function) none

/-- The capture cannot be fetched, and the listing of the closure says so. -/
theorem listing_agrees_truncating :
    truncating.frames.head? = some ⟨⟨5⟩, ⟨4⟩, 0, 0⟩ ∧
    (truncating.heap.function? ⟨4⟩).map (fun script =>
      (Listing.instruction truncating.heap.constantFormat script.chunk 0).1) =
        some "0000    7 Closure             1 '<script>'\n<truncated>" ∧
    ∃ kind m', Exec.fetchItem none truncating = .error (.failed kind) m' := by
  have head : truncating.frames.head? = some ⟨⟨5⟩, ⟨4⟩, 0, 0⟩ := by decide +kernel
  have listed : (truncating.heap.function? ⟨4⟩).map (fun script =>
      (Listing.instruction truncating.heap.constantFormat script.chunk 0).1) =
        some "0000    7 Closure             1 '<script>'\n<truncated>" := by decide +kernel
  have code : (truncating.heap.function? ⟨4⟩).map (fun script => script.chunk.code[0]?) =
      some (some Opcode.closure.byte) := by decide +kernel
  obtain ⟨script, found, text⟩ := Option.map_eq_some_iff.mp listed
  rw [found] at code
  obtain ⟨-, -, -, -, agrees⟩ := listing_agrees truncating.heap.constantFormat script.chunk
  have agrees := agrees truncating none _ _ _ head found (Option.some.inj code)
  refine ⟨head, listed, (agrees.2.1 .closure (Opcode.ofByte?_byte .closure)).mp ?_⟩
  exact ⟨"0000    7 Closure             1 '<script>'\n", text⟩

end Machine

end ScriptMachine
