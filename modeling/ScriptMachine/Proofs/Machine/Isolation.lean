/-
# Calls are isolated

Byte code may take values off the stack that belong to a caller. Where it does
not, a call is isolated: as long as every instruction finds its operands and the
window of its call at or above the base of the frame that it runs in, the slots
below the base of a call, the frames below and the captured variables below stay
as they were until the call returns. Only a captured variable that is still open
reaches further down: storing into it stores into its slot, wherever this is.

Of an instruction it is enough to know what it leaves alone below its own frame,
since a frame that is pushed lies no lower than the one below it.

## Main definitions

* `Machine.contained` — an instruction reaches no value below its frame
* `Machine.StoresThrough` — the slot that is stored into through a captured variable
* `Machine.Confines` — what an instruction leaves alone below its frame
* `Machine.Inner`, `Machine.Isolates` — the steps of a call, and what has not changed so far

## Main results

* `Intact.confines_of_perform` — contained instructions leave everything below alone
* `Isolates.step`, `Isolates.run` — so does a call, and so do the calls within
* `Isolates.returns` — what its frame leaves when it returns
* `Occurs.calls_isolated` — what a call leaves when it has returned
-/

import ScriptMachine.Proofs.Machine.Steady

namespace ScriptMachine

open Heap

/-- What an instruction takes off the stack it also reaches. -/
theorem Opcode.taken_le_depth {op : Opcode} (plain : op.isPlain) (a b : Nat) :
    op.taken ≤ op.depth a b := by
  cases op with
  | setLocal | setUpvalue | call | invoke | closure | closeUpvalue | ret => cases plain
  | superInvoke => exact Nat.le_add_left _ _
  | inherit | method => exact Nat.le_succ _
  | _ => first | exact Nat.le_refl _ | exact Nat.zero_le _

namespace Machine

variable {m m' : Machine} {slot : Nat}

/-! ## Contained instructions -/

/-- The next instruction reaches no value below the base of its frame. -/
def contained (m : Machine) : Bool :=
  m.next?.all fun instruction =>
    instruction.opcode.depth (instruction.operands.getD 0 0) (instruction.operands.getD 1 0) ≤
      m.stack.size - m.floor

/-- The captured variable at an index of the innermost frame's closure is open on a slot. -/
def CapturedOpen (m : Machine) (index slot : Nat) : Prop :=
  ∃ f captured h, m.frames.head? = some f ∧ m.heap.captured? f.closure = some captured ∧
    captured[index]? = some h ∧ m.heap.upvalue? h = some (.opened slot)

/-- The next instruction stores into a slot through a captured variable that is open on it. -/
def StoresThrough (m : Machine) (slot : Nat) : Prop :=
  ∃ instruction, m.next? = some instruction ∧ instruction.opcode = .setUpvalue ∧
    m.CapturedOpen (instruction.operands.getD 0 0) slot

/-- What an instruction does to the frames: it stays in its frame, pushes one no lower than it, or
leaves it. -/
inductive Reframes (m m' : Machine) : Prop
  | stay (ip : Nat) (eq : m'.frames = (m.withIp ip).frames)
  | push (ip : Nat) (f : Frame) (eq : m'.frames = f :: (m.withIp ip).frames)
    (above : m.floor ≤ f.base) (inside : f.base < m'.stack.size)
  | leave (eq : m'.frames = m.frames.tail)

/-- An instruction leaves alone what lies below its frame, apart from the slots that it stores into
through captured variables. -/
structure Confines (m : Machine) (stored : Nat → Prop) (m' : Machine) : Prop where
  filled : m.floor ≤ m'.stack.size
  slots : ∀ j < m.floor, m'.stack[j]? = m.stack[j]? ∨ stored j
  below : m'.openUpvalues.filter (·.slot < m.floor) = m.openUpvalues.filter (·.slot < m.floor)
  frames : m.Reframes m'

theorem Rooted.reframes (rooted : m.Rooted m') : m.Reframes m' := by
  obtain ⟨ip, eq⟩ := rooted.frames
  exact .stay ip eq

theorem Reframes.of_eq (eq : m'.frames = m.frames) : m.Reframes m' := by
  obtain ⟨ip, same⟩ := (Rooted.refl m).frames
  exact .stay ip (eq.trans same)

theorem Entered.reframes (entered : m.Entered slot m') (above : m.floor ≤ slot) :
    m.Reframes m' := by
  obtain same | ⟨f, eq, rfl⟩ := entered.frames
  · exact .of_eq same
  · obtain ⟨ip, same⟩ := (Rooted.refl m).frames
    exact .push ip f (eq.trans (congrArg _ same)) above entered.inside

/-- Slots stay the same where the instruction takes values from above them. -/
theorem Shares.slots {stored : Nat → Prop} {kept : Nat} (shares : m.Shares m' kept)
    (le : m.floor ≤ kept) : ∀ j < m.floor, m'.stack[j]? = m.stack[j]? ∨ stored j :=
  fun j lt => .inl (shares.same j (Nat.lt_of_lt_of_le lt le))

theorem Rooted.confines {stored : Nat → Prop} {kept : Nat} (rooted : m.Rooted m')
    (shares : m.Shares m' kept) (le : m.floor ≤ kept) : m.Confines stored m' :=
  ⟨le.trans shares.after, shares.slots le, rooted.below, rooted.reframes⟩

/-- A call overwrites no slot but that of the callee. -/
theorem Entered.confines {stored : Nat → Prop} (entered : m.Entered slot m')
    (same : ∀ j < slot, m'.stack[j]? = m.stack[j]?) (above : m.floor ≤ slot) :
    m.Confines stored m' where
  filled := above.trans entered.inside.le
  slots j lt := .inl (same j (Nat.lt_of_lt_of_le lt above))
  below := by rw [entered.openUpvalues]
  frames := entered.reframes above

/-- Closing from a slot of the frame on leaves the captured variables below the frame open. -/
theorem filter_filter_of_le {low high : Nat} (le : low ≤ high) (entries : List OpenUpvalue) :
    (entries.filter (·.slot < high)).filter (·.slot < low) = entries.filter (·.slot < low) := by
  rw [List.filter_filter]
  refine List.filter_congr fun e _ => ?_
  simp only [Bool.and_eq_left_iff_imp, decide_eq_true_eq]
  omega

end Machine

namespace Exec

open Machine

variable {m m' : Machine} {op : Opcode}

/-! ## Calls and the slots below them -/

/-- A call overwrites no slot but that of the callee, and takes nothing from below. -/
theorem calls_below (regular : m.Regular) (calls : op.calls) (a b : Nat)
    (ran : Exec.perform op a b none m = .ok ⟨⟩ m') :
    m.Entered (m.stack.size - op.depth a b) m' ∧
      ∀ j < m.stack.size - op.depth a b, m'.stack[j]? = m.stack[j]? := by
  have entered := (calls_leaves regular calls a b).of_ok ran
  refine ⟨entered, fun j lt => ?_⟩
  have shares := Shares.refl regular
  cases op with
  | call =>
    have overwrites : Calls m (m.stack.size - 1 - a) (Exec.perform .call a b) m :=
      .read (.peek _) (fun _ => Calls.callValue shares.overwrites rfl _) shares.overwrites
    simp only [Opcode.depth] at lt
    exact (Leaves.of_ok overwrites ran).same j (lt.trans entered.inside) (by omega)
  | invoke =>
    have overwrites : Calls m (m.stack.size - 1 - b) (Exec.perform .invoke a b) m :=
      .read (.name _) (fun _ => Calls.invoke shares.overwrites rfl _) shares.overwrites
    simp only [Opcode.depth] at lt
    exact (Leaves.of_ok overwrites ran).same j (lt.trans entered.inside) (by omega)
  | superInvoke =>
    have plain : Opcode.superInvoke.isPlain := rfl
    have kept := (Takes.perform plain a b m rfl shares).of_ok ran
    simp only [Opcode.depth] at lt
    exact kept.same j (by simp only [Opcode.taken]; omega)
  | _ => cases calls

/-! ## Other instructions and the slots below their frames -/

/-- A captured variable that is open stores into its slot. -/
theorem setUpvalue_stack (index : Nat) :
    (Exec.setUpvalue index).Leaves m
      (fun _ m' => m'.stack.size = m.stack.size ∧
        ∀ j, m'.stack[j]? = m.stack[j]? ∨ m.CapturedOpen index j) fun _ => True := by
  refine .bind (.bind (.frame (fun f head => .get_bind (.orMalformed (fun h at_ => ?_)
    fun _ => trivial)) trivial))
  obtain ⟨captured, closure, at_⟩ := Option.bind_eq_some_iff.mp at_
  refine .read (.peek _) (fun v => .get_bind ?_) trivial
  cases found : m.heap.get? h with
  | none => trivial
  | some object =>
    refine .bind (.of_eq (orBroken_eq rfl _) ?_)
    split
    next slot =>
      refine .ite (fun _ => .get_bind (.ite (fun _ => ⟨Array.size_setIfInBounds .., fun j => ?_⟩)
        fun _ => trivial)) fun _ => trivial
      by_cases eq : j = slot
      · exact .inr ⟨f, captured, h, head, closure, at_, eq ▸ upvalue?_eq_some_iff.mpr found⟩
      · exact .inl (Array.getElem?_setIfInBounds_ne (Ne.symm eq))
    next => exact ⟨rfl, fun _ => .inl rfl⟩
    next => trivial

/-- A closure is pushed, and what it captures is not taken off the stack. -/
theorem makeClosure_stack (index : Nat) :
    (Exec.makeClosure index).Leaves m
      (fun _ m' => m.stack.size < m'.stack.size ∧
        ∀ j < m.stack.size, m'.stack[j]? = m.stack[j]?) fun _ => True := by
  refine .read (.constant _) (fun _ => .get_bind (.read (.orMalformed _ _) ?_ trivial)) trivial
  rintro ⟨_, _⟩
  refine .bind (.read .function (fun _ => .read .frame (fun _ => .bind (.setIp (.orMalformed
    (fun _ _ => ?_) fun _ => trivial))) trivial) trivial)
  refine .bind (.allocate (.bind (.push ((captureAll_stack _ _).mono (fun _ m' stack => ?_)
    fun _ _ => trivial) trivial)))
  have pushed : m'.stack = m.stack.push _ := stack
  rw [pushed, Array.size_push]
  refine ⟨Nat.lt_succ_self _, fun j lt => ?_⟩
  rw [Array.getElem?_push_lt lt, Array.getElem?_eq_getElem]

end Exec

namespace Machine

variable {m m' : Machine} {f : Frame} {op : Opcode} {a b : Nat}

theorem Intact.confines_of_closeTop {stored : Nat → Prop} (intact : m.Intact .any)
    (above : m.floor < m.stack.size) (ran : Exec.closeTop none m = .ok ⟨⟩ m') :
    m.Confines stored m' := by
  cases (closeTop_eq (Nat.ne_zero_of_lt above)).symm.trans ran
  refine ⟨?_, fun j lt => .inl ?_, ?_, .of_eq ?_⟩
  · change m.floor ≤ m.stack.pop.size
    rw [Array.size_pop]
    omega
  · change m.stack.pop[j]? = _
    rw [Array.getElem?_pop, if_pos (by omega)]
  · change (m.closeFrom (m.stack.size - 1)).openUpvalues.filter _ = _
    rw [intact.openUpvalues_closeFrom, filter_filter_of_le (by omega)]
  · change (m.closeFrom (m.stack.size - 1)).frames = _
    rw [closeFrom_eq]

/-- A return leaves its result on the base of its frame. -/
theorem Intact.confines_of_ret {stored : Nat → Prop} (intact : m.Intact .any) (regular : m.Regular)
    (framed : m.frames ≠ []) (above : m.floor < m.stack.size)
    (ran : Exec.returnValue none m = .ok ⟨⟩ m') :
    m.Confines stored m' ∧ m'.stack.size = m.floor + 1 ∧ m'.stack.back? = m.stack.back? ∧
      m'.frames = m.frames.tail ∧
      m'.openUpvalues = m.openUpvalues.filter (·.slot < m.floor) := by
  obtain ⟨f, head⟩ := exists_head? framed
  have floor := floor_of_head? head
  obtain ⟨v, top⟩ : ∃ v, m.stack.back? = some v := exists_back? (by omega)
  have returned := (Exec.returnValue_eq_ok regular head top).symm.trans ran
  split at returned
  · cases returned
  cases returned
  have size : (m.stack.pop.take f.base).size = f.base := by
    rw [Array.take_eq_extract, Array.size_extract, Array.size_pop]
    omega
  have list : (m.unwind f.base).openUpvalues = m.openUpvalues.filter (·.slot < m.floor) := by
    rw [floor]
    exact intact.openUpvalues_unwind f.base
  have left := m.frames_unwind f.base
  refine ⟨⟨?_, fun j lt => .inl ?_, ?_, .leave left⟩, ?_, ?_, left, list⟩
  · change m.floor ≤ ((m.stack.pop.take f.base).push v).size
    rw [Array.size_push, size, floor]
    exact Nat.le_succ _
  · change ((m.stack.pop.take f.base).push v)[j]? = m.stack[j]?
    rw [Array.getElem?_push, if_neg (by omega), Array.take_eq_extract, Array.getElem?_extract,
      if_pos (by rw [Array.size_pop]; omega), Nat.zero_add, Array.getElem?_pop, if_pos (by omega)]
  · exact (congrArg _ list).trans (filter_filter_of_le (Nat.le_refl _) _)
  · change ((m.stack.pop.take f.base).push v).size = m.floor + 1
    rw [Array.size_push, size, floor]
  · change ((m.stack.pop.take f.base).push v).back? = _
    rw [Array.back?_push, top]

/-- An instruction that finds what it takes within its frame leaves everything below alone. -/
theorem Intact.confines_of_perform (intact : m.Intact .any) (regular : m.Regular)
    (framed : m.frames ≠ []) (filled : m.floor ≤ m.stack.size)
    (contained : op.depth a b ≤ m.stack.size - m.floor)
    (ran : Exec.perform op a b none m = .ok ⟨⟩ m') :
    m.Confines (fun j => op = .setUpvalue ∧ m.CapturedOpen a j) m' := by
  have plain {op : Opcode} (plain : op.isPlain) (stays : op.stays)
      (contained : op.depth a b ≤ m.stack.size - m.floor)
      (ran : Exec.perform op a b none m = .ok ⟨⟩ m') {stored : Nat → Prop} :
      m.Confines stored m' := by
    have rooted := (Exec.perform_leaves intact regular stays a b).of_ok ran
    have shares := (Exec.Takes.perform plain a b m rfl (Shares.refl regular)).of_ok ran
    have taken := Opcode.taken_le_depth plain a b
    exact rooted.confines shares (by omega)
  cases op with
  | call | invoke | superInvoke =>
    obtain ⟨entered, same⟩ := Exec.calls_below regular rfl a b ran
    exact entered.confines same (by omega)
  | setLocal =>
    have rooted := (Exec.perform_leaves intact regular rfl a b).of_ok ran
    obtain ⟨f, head⟩ := exists_head? framed
    obtain ⟨-, stack⟩ := (Exec.setLocal_leaves head a).of_ok ran
    have floor := floor_of_head? head
    refine ⟨?_, fun j lt => .inl ?_, rooted.below, rooted.reframes⟩
    all_goals
      rw [stack]
      cases m.stack.back?
    · exact filled
    · rwa [Option.elim_some, Array.size_setIfInBounds]
    · rfl
    · rw [Option.elim_some, Array.getElem?_setIfInBounds_ne (by omega)]
  | setUpvalue =>
    have rooted := (Exec.perform_leaves intact regular rfl a b).of_ok ran
    obtain ⟨size, same⟩ := (Exec.setUpvalue_stack a).of_ok ran
    exact ⟨size ▸ filled, fun j _ => (same j).imp_right fun captured => ⟨rfl, captured⟩,
      rooted.below, rooted.reframes⟩
  | closure =>
    have rooted := (Exec.perform_leaves intact regular rfl a b).of_ok ran
    obtain ⟨grown, same⟩ := (Exec.makeClosure_stack a).of_ok ran
    exact ⟨filled.trans grown.le, fun j lt => .inl (same j (Nat.lt_of_lt_of_le lt filled)),
      rooted.below, rooted.reframes⟩
  | closeUpvalue =>
    simp only [Opcode.depth] at contained
    exact intact.confines_of_closeTop (by omega) ran
  | ret =>
    simp only [Opcode.depth] at contained
    exact (intact.confines_of_ret regular framed (by omega) ran).1
  | _ => exact plain rfl rfl contained ran

/-! ## Steps -/

/-- Fetching the instruction moves the instruction pointer of the frame. -/
theorem Reframes.of_fetched {events : List ExecutionEvent}
    (reframes : (m.fetched events).Reframes m') : m.Reframes m' := by
  have floor : (m.fetched events).floor = m.floor := m.floor_fetched events
  cases reframes with
  | stay ip eq => exact .stay ip (eq.trans (m.frames_withIp_withIp _ ip))
  | push ip f eq above inside =>
    exact .push ip f (eq.trans (congrArg _ (m.frames_withIp_withIp _ ip))) (floor ▸ above) inside
  | leave eq => exact .leave (eq.trans (List.tail_modifyHead))

theorem Confines.of_fetched {stored : Nat → Prop} {events : List ExecutionEvent}
    (confines : (m.fetched events).Confines stored m') : m.Confines stored m' := by
  have floor : (m.fetched events).floor = m.floor := m.floor_fetched events
  obtain ⟨filled, slots, below, frames⟩ := confines
  rw [floor] at filled slots below
  exact ⟨filled, slots, below, frames.of_fetched⟩

theorem Confines.mono {stored stored' : Nat → Prop} (confines : m.Confines stored m')
    (weaker : ∀ j, stored j → stored' j) : m.Confines stored' m' :=
  { confines with slots := fun j lt => (confines.slots j lt).imp_right (weaker j) }

/-- A step that finds what it takes within its frame leaves everything below alone. -/
theorem Occurs.confines_of_step (occurs : m.Occurs) (filled : m.floor ≤ m.stack.size)
    (contained : m.contained) (ran : Exec.step none m = .ok ⟨⟩ m') :
    m.Confines m.StoresThrough m' := by
  have framed := framed_of_step ran
  cases next : m.next? with
  | none =>
    obtain ⟨_, _, eq⟩ := occurs.intact.step_of_next?_eq_none framed next
    cases eq.symm.trans ran
  | some instruction =>
    obtain ⟨events, eq⟩ := Exec.step_eq_nextIp none next
    have floor : (m.fetched events).floor = m.floor := m.floor_fetched events
    rw [Machine.contained, next, Option.all_some, decide_eq_true_eq] at contained
    have confines := (occurs.intact.fetched events).confines_of_perform
      (occurs.regular.fetched events) (frames_withIp_ne_nil framed _) (floor ▸ filled)
      (floor ▸ contained) (eq.symm.trans ran)
    refine confines.of_fetched.mono fun j ⟨op, captured⟩ => ⟨instruction, next, op, ?_⟩
    -- The pointer makes no difference to the closure of the frame.
    obtain ⟨f, captured, h, head, found⟩ := captured
    have head : (m.frames.modifyHead ({ · with ip := m.nextIp })).head? = some f := head
    rw [List.head?_modifyHead] at head
    obtain ⟨g, head', rfl⟩ := Option.map_eq_some_iff.mp head
    exact ⟨g, captured, h, head', found⟩

/-! ## The frames of a call -/

/-- The frames lie one above the other, the lowest one on this base. -/
inductive Stacked : (base : Nat) → List Frame → Prop
  | single (f : Frame) : Stacked f.base [f]
  | cons {base : Nat} {g : Frame} {rest : List Frame} (f : Frame) (le : g.base ≤ f.base)
    (stacked : Stacked base (g :: rest)) : Stacked base (f :: g :: rest)

variable {base : Nat} {rest callers : List Frame} {stored : Nat → Prop}

theorem Stacked.le (stacked : Stacked base (f :: rest)) : base ≤ f.base := by
  generalize eq : f :: rest = inner at stacked
  induction stacked generalizing f rest with
  | single g =>
    obtain ⟨rfl, -⟩ := List.cons.inj eq
    exact Nat.le_refl _
  | cons g le stacked ih =>
    obtain ⟨rfl, -⟩ := List.cons.inj eq
    exact (ih rfl).trans le

theorem Stacked.base_eq (stacked : Stacked base [f]) : f.base = base := by
  cases stacked
  rfl

theorem Stacked.withIp (stacked : Stacked base (f :: rest)) (ip : Nat) :
    Stacked base ({ f with ip } :: rest) := by
  cases stacked with
  | single => exact .single { f with ip }
  | cons _ le stacked => exact .cons _ le stacked

/-- So far in a call from this machine, the slots and captured variables below the base are as they
were, apart from the slots that have been stored into; and the frames of the call lie above those of
its callers. -/
structure Isolates (m : Machine) (callers : List Frame) (base : Nat) (stored : Nat → Prop)
    (s : Machine) : Prop where
  filled : s.floor ≤ s.stack.size
  slots : ∀ j < base, s.stack[j]? = m.stack[j]? ∨ stored j
  below : s.openUpvalues.filter (·.slot < base) = m.openUpvalues.filter (·.slot < base)
  frames : ∃ f rest, s.frames = f :: (rest ++ callers) ∧ Stacked base (f :: rest)

/-- A step of a call that lies above this many frames. The instruction finds what it takes within
its frame. -/
def Inner (depth : Nat) (s s' : Machine) : Prop :=
  s.contained ∧ Exec.step none s = .ok ⟨⟩ s' ∧ depth < s'.frames.length

variable {s s' : Machine}

/-- The frames of a call after a step. If one is left, those of the callers are not yet reached. -/
theorem Reframes.stacked (reframes : s.Reframes s') (filled : s.floor ≤ s'.stack.size)
    (frames : s.frames = f :: (rest ++ callers)) (stacked : Stacked base (f :: rest))
    (deep : callers.length < s'.frames.length) :
    s'.floor ≤ s'.stack.size ∧
      ∃ f rest, s'.frames = f :: (rest ++ callers) ∧ Stacked base (f :: rest) := by
  have floor : s.floor = f.base := floor_of_head? (by rw [frames, List.head?_cons])
  have pointed (ip : Nat) : (s.withIp ip).frames = { f with ip } :: (rest ++ callers) := by
    rw [Machine.withIp, frames, List.modifyHead_cons]
  have top {g : Frame} {others : List Frame} (eq : s'.frames = g :: others) : s'.floor = g.base :=
    floor_of_head? (by rw [eq, List.head?_cons])
  cases reframes with
  | stay ip eq =>
    have eq := eq.trans (pointed ip)
    exact ⟨(top eq).trans floor.symm ▸ filled, _, _, eq, stacked.withIp ip⟩
  | push ip g eq above inside =>
    have eq := eq.trans (congrArg _ (pointed ip))
    exact ⟨top eq ▸ inside.le, g, { f with ip } :: rest, eq,
      .cons g (floor ▸ above) (stacked.withIp ip)⟩
  | leave eq =>
    rw [frames, List.tail_cons] at eq
    cases stacked with
    | single => rw [eq, List.nil_append] at deep; exact absurd deep (Nat.lt_irrefl _)
    | cons _ le stacked => exact ⟨(top eq).trans_le le |>.trans (floor ▸ filled), _, _, eq, stacked⟩

/-- A step of a call leaves alone what the call has to. -/
theorem Isolates.step (isolates : m.Isolates callers base stored s) (occurs : s.Occurs)
    (inner : Inner callers.length s s') :
    m.Isolates callers base (fun j => stored j ∨ s.StoresThrough j) s' := by
  obtain ⟨contained, ran, deep⟩ := inner
  obtain ⟨f, rest, frames, stacked⟩ := isolates.frames
  have confines := occurs.confines_of_step isolates.filled contained ran
  obtain ⟨filled, frames'⟩ := confines.frames.stacked confines.filled frames stacked deep
  -- The frame that has run lies no lower than the call.
  have le : base ≤ s.floor :=
    stacked.le.trans (floor_of_head? (by rw [frames, List.head?_cons])).ge
  refine ⟨filled, fun j lt => ?_, ?_, frames'⟩
  · rcases confines.slots j (Nat.lt_of_lt_of_le lt le) with same | stores
    · rw [same]
      exact (isolates.slots j lt).imp_right .inl
    · exact .inr (.inr stores)
  · rw [← filter_filter_of_le le, confines.below, filter_filter_of_le le, isolates.below]

/-! ## Runs of calls -/

/-- In this run of a call a captured variable stores into the slot. -/
def Stores (depth : Nat) (s s' : Machine) (slot : Nat) : Prop :=
  ∃ t t', Relation.ReflTransGen (Inner depth) s t ∧ Inner depth t t' ∧
    Relation.ReflTransGen (Inner depth) t' s' ∧ t.StoresThrough slot

theorem Isolates.run (isolates : m.Isolates callers base (fun _ => False) s) (occurs : s.Occurs)
    (run : Relation.ReflTransGen (Inner callers.length) s s') :
    s'.Occurs ∧ m.Isolates callers base (Stores callers.length s s') s' := by
  induction run with
  | refl =>
    exact ⟨occurs, { isolates with slots := fun j lt => (isolates.slots j lt).imp_right nofun }⟩
  | @tail t t' run inner ih =>
    obtain ⟨occurs, isolates⟩ := ih
    have stepped := isolates.step occurs inner
    refine ⟨occurs.step inner.2.1, { stepped with slots := fun j lt => ?_ }⟩
    refine (stepped.slots j lt).imp_right fun stores => ?_
    rcases stores with ⟨u, u', before, here, after, stores⟩ | stores
    · exact ⟨u, u', before, here, after.tail inner, stores⟩
    · exact ⟨t, t', run, inner, .refl, stores⟩

/-! ## Calls -/

variable {m₁ m₂ m₃ : Machine} {instruction : Instruction} {v : Value}

/-- Whatever a call does before its frame is pushed, it leaves alone what lies below. -/
theorem Occurs.isolates_of_call (occurs : m.Occurs) (next : m.next? = some instruction)
    (calls : instruction.opcode.calls) (called : Exec.step none m = .ok ⟨⟩ m₁)
    (pushed : m₁.frames.length = m.frames.length + 1) (head : m₁.frames.head? = some f) :
    m.Isolates (m.withIp m.nextIp).frames f.base (fun _ => False) m₁ := by
  obtain ⟨events, eq⟩ := Exec.step_eq_nextIp none next
  have regular := occurs.regular.fetched events
  have ran := eq.symm.trans called
  obtain ⟨entered, same⟩ := Exec.calls_below regular calls _ _ ran
  have length : (m.fetched events).frames.length = m.frames.length := List.length_modifyHead
  obtain unpushed | ⟨g, frames, base⟩ := entered.frames
  · rw [unpushed, length] at pushed
    omega
  · obtain rfl : g = f := by
      rw [frames, List.head?_cons] at head
      exact Option.some.inj head
    rw [← base] at same
    have filled : m₁.floor ≤ m₁.stack.size := by
      rw [floor_of_head? head, base]
      exact entered.inside.le
    exact ⟨filled, fun j lt => .inl (same j lt), by rw [entered.openUpvalues]; rfl,
      g, [], frames, .single g⟩

/-- When the frame of a call returns, it leaves its result on the base, and nothing else of what lay
there or above. -/
theorem Isolates.returns (isolates : m.Isolates callers base stored s) (occurs : s.Occurs)
    (level : s.frames.length = callers.length + 1) (ret : s.next?.map (·.opcode) = some .ret)
    (contained : s.contained) (ran : Exec.step none s = .ok ⟨⟩ s') :
    s'.stack.size = base + 1 ∧ s'.stack.back? = s.stack.back? ∧
    (∀ j < base, s'.stack[j]? = m.stack[j]? ∨ stored j) ∧ s'.frames = callers ∧
    s'.openUpvalues = m.openUpvalues.filter (·.slot < base) := by
  obtain ⟨f, rest, frames, stacked⟩ := isolates.frames
  -- The frame that returns is the one that the call has pushed.
  obtain rfl : rest = [] := by
    rw [frames, List.length_cons, List.length_append] at level
    exact List.eq_nil_of_length_eq_zero (by omega)
  have floor : s.floor = base := by
    rw [floor_of_head? (by rw [frames, List.head?_cons])]
    exact stacked.base_eq
  obtain ⟨instruction, next, op⟩ := Option.map_eq_some_iff.mp ret
  rw [Machine.contained, next, Option.all_some, op, decide_eq_true_eq] at contained
  simp only [Opcode.depth] at contained
  obtain ⟨events, eq⟩ := Exec.step_eq_nextIp none next
  rw [op] at eq
  have above : (s.fetched events).floor < (s.fetched events).stack.size := by
    rw [floor_fetched]
    change s.floor < s.stack.size
    omega
  obtain ⟨confines, size, back, left, list⟩ :=
    ((occurs.intact.fetched events).confines_of_ret (occurs.regular.fetched events)
      (frames_withIp_ne_nil (framed_of_step ran) _) above (eq.symm.trans ran) :
        Confines _ (fun _ => False) _ ∧ _)
  rw [floor_fetched, floor] at size list
  refine ⟨size, back, fun j lt => ?_, ?_, list.trans isolates.below⟩
  · have same := (confines.slots j (by rwa [floor_fetched, floor])).resolve_right id
    rw [same]
    exact isolates.slots j lt
  · rw [left]
    change (s.frames.modifyHead _).tail = _
    rw [List.tail_modifyHead, frames]
    rfl

/-- A call is isolated from its caller. Suppose that a frame is pushed, that every instruction until
it returns finds what it takes within the frame that it runs in, and that the frame returns a value.
Then this value lies where the callee was, on top of the stack. The slots below are as they were
before the call, but for those that were stored into through captured variables. The frames below
are as they were, with the caller behind its call instruction. No captured variable is open from the
slot of the callee on, and those below are the same as before. -/
theorem Occurs.calls_isolated (occurs : m.Occurs) (next : m.next? = some instruction)
    (calls : instruction.opcode.calls) (called : Exec.step none m = .ok ⟨⟩ m₁)
    (pushed : m₁.frames.length = m.frames.length + 1) (head : m₁.frames.head? = some f)
    (run : Relation.ReflTransGen (Inner m.frames.length) m₁ m₂)
    (level : m₂.frames.length = m.frames.length + 1)
    (ret : m₂.next?.map (·.opcode) = some .ret) (contained : m₂.contained)
    (top : m₂.stack.back? = some v) (returned : Exec.step none m₂ = .ok ⟨⟩ m₃) :
    m₃.stack.size = f.base + 1 ∧ m₃.stack.back? = some v ∧
    (∀ j < f.base, m₃.stack[j]? = m.stack[j]? ∨ Stores m.frames.length m₁ m₂ j) ∧
    m₃.frames = (m.withIp m.nextIp).frames ∧
    m₃.openUpvalues = m.openUpvalues.filter (·.slot < f.base) ∧
    ∀ h j, m₃.heap.upvalue? h = some (.opened j) → j < f.base := by
  have length : (m.withIp m.nextIp).frames.length = m.frames.length := List.length_modifyHead
  rw [← length] at run level ⊢
  obtain ⟨occurs₂, isolates⟩ :=
    (occurs.isolates_of_call next calls called pushed head).run (occurs.step called) run
  obtain ⟨size, back, slots, frames, list⟩ := isolates.returns occurs₂ level ret contained returned
  refine ⟨size, back.trans top, slots, frames, list, fun h j found => ?_⟩
  have mem := (occurs₂.step returned).intact.complete h j found
  rw [list] at mem
  simpa using (List.mem_filter.mp mem).2

theorem Inner.left {depth : Nat} {s : Machine} (contained : s.contained)
    (goes : s.stopped? Exec.step none = none)
    (deep : depth < (s.left Exec.step none).frames.length) :
    Inner depth s (s.left Exec.step none) := ⟨contained, eq_ok_of_stopped? goes, deep⟩

/-- A machine that is about to call a function, which stores a number into a variable of the script
that it has captured, and returns the number. -/
def lending : Machine :=
  let m := start {} default .zero
  let callee : Chunk Value :=
    ⟨#[Opcode.constant.byte, 1, Opcode.setUpvalue.byte, 0, Opcode.ret.byte], #[],
      #[.nil, .number (.ofNat 9)]⟩
  let (g, m) := m.allocate (.function ⟨none, 0, 1, callee⟩) []
  let code := #[Opcode.constant.byte, 1, Opcode.closure.byte, 2, 1, 1, Opcode.call.byte, 0]
  let script : Chunk Value := ⟨code, #[], #[.nil, .number (.ofNat 5), .object g]⟩
  let (function, m) := m.allocate (.function (.script script)) []
  ((m.left (enter function) none).left Exec.step none).left Exec.step none

/-- The machine within the call, when its function is about to return. -/
def lent : Machine :=
  ((lending.left Exec.step none).left Exec.step none).left Exec.step none

/-- The captured variable is still open, and its slot may have changed for that reason only. -/
theorem calls_isolated_lending :
    lending.Occurs ∧ lending.next? = some ⟨.call, [0]⟩ ∧
    Relation.ReflTransGen (Inner 1) (lending.left Exec.step none) lent ∧
    lent.next? = some ⟨.ret, []⟩ ∧
    (lent.left Exec.step none).stack.size = 3 ∧
    (lent.left Exec.step none).stack.back? = some (.number (.ofNat 9)) ∧
    (∀ j < 2, (lent.left Exec.step none).stack[j]? = lending.stack[j]? ∨
      Stores 1 (lending.left Exec.step none) lent j) ∧
    (lent.left Exec.step none).frames = [⟨⟨5⟩, ⟨4⟩, 8, 0⟩] ∧
    (lent.left Exec.step none).openUpvalues = [⟨1, ⟨7⟩⟩] := by
  have occurs : lending.Occurs := by
    refine .left_step (.left_step (.left_enter ?_ ?_) ?_) ?_
    · exact ((Occurs.start _ _ _).host (.function _ [])).host (.function _ [])
    all_goals decide +kernel
  have next : lending.next? = some ⟨.call, [0]⟩ := by decide +kernel
  have called : Exec.step none lending = .ok ⟨⟩ (lending.left Exec.step none) :=
    eq_ok_of_stopped? (by decide +kernel)
  have head : (lending.left Exec.step none).frames.head? = some ⟨⟨6⟩, ⟨3⟩, 0, 2⟩ := by
    decide +kernel
  have run : Relation.ReflTransGen (Inner lending.frames.length) (lending.left Exec.step none)
      lent := by
    refine .tail (.single (.left ?_ ?_ ?_)) (.left ?_ ?_ ?_) <;> decide +kernel
  have ret : lent.next? = some ⟨.ret, []⟩ := by decide +kernel
  have returned : Exec.step none lent = .ok ⟨⟩ (lent.left Exec.step none) :=
    eq_ok_of_stopped? (by decide +kernel)
  have depth : lending.frames.length = 1 := by decide +kernel
  obtain ⟨size, top, slots, frames, list, -⟩ := occurs.calls_isolated next rfl called
    (by decide +kernel) head run (by decide +kernel) (by rw [ret]; rfl) (by decide +kernel)
    (by decide +kernel : lent.stack.back? = some (.number (.ofNat 9))) returned
  rw [depth] at run slots
  exact ⟨occurs, next, run, ret, size, top, slots, frames.trans (by decide +kernel),
    list.trans (by decide +kernel)⟩

end Machine

end ScriptMachine
