/-
# Variables as shared cells

A variable is a cell that holds a value. It lives in one slot of the stack, and
closures may capture it; whoever stores into it, all see the same value. When
its slot leaves the stack, the variable goes on to exist for the closures that
have captured it, and whatever takes the slot next is another variable.

This is how it should be. What a machine has instead is an object for each
captured variable, which either points to a slot or holds a value of its own,
and a list of those that point to slots. The variables describe a heap and a
stack if these objects can be assigned variables in such a way that closures
have captured the variables of their objects, and each value is found where the
machine looks for it.

## Main definitions

* `Variables` — which variable lives in which slot, who has captured it, and what it holds
* `Variables.after` — what an instruction does with variables
* `Variables.Describe` — the heap and the stack hold what the variables say

## Main results

* `Describe.refill`, `Describe.closeFrom` — slots leave the stack, and others take their places
* `Describe.store`, `Describe.storeClosed` — a value is stored into a variable
* `Describe.pushCaptured`, `Describe.allocated` — a closure captures a variable, through an object
  that may be new
-/

import ScriptMachine.Proofs.Machine.Effects

namespace ScriptMachine

open Heap

/-- Variables, which are numbered as they come into being. -/
structure Variables where
  /-- The variable that lives in each slot of the stack. -/
  slots : List Nat
  /-- The closures with the variables that they have captured, the oldest capture first. -/
  captures : List (Handle × Nat)
  /-- What was stored into a variable most recently. -/
  value : Nat → Value
  /-- How many variables there have been. -/
  count : Nat

namespace Variables

/-- No variables at all. -/
def blank : Variables := ⟨[], [], fun _ => .nil, 0⟩

/-- The variables that a closure has captured, in their order. -/
def captured (vars : Variables) (h : Handle) : List Nat :=
  (vars.captures.filter (·.1 == h)).map (·.2)

/-- Some closure has captured the variable. -/
def IsCaptured (vars : Variables) (x : Nat) : Prop := ∃ c ∈ vars.captures, c.2 = x

instance (vars : Variables) (x : Nat) : Decidable (vars.IsCaptured x) :=
  inferInstanceAs (Decidable (∃ c ∈ vars.captures, c.2 = x))

/-- The slots whose variables have been captured. -/
def capturedSlots (vars : Variables) : List Nat :=
  (vars.slots.zipIdx.filter fun (x, _) => vars.IsCaptured x).map (·.2)

/-- A new variable takes the next slot. -/
def push (vars : Variables) (v : Value) : Variables :=
  { vars with
    slots := vars.slots ++ [vars.count]
    value := Function.update vars.value vars.count v
    count := vars.count + 1 }

/-- The variables of the lowest slots stay, and new ones live in the other slots of the stack. -/
def refill (vars : Variables) (kept : Nat) (stack : Array Value) : Variables :=
  (stack.toList.drop kept).foldl push { vars with slots := vars.slots.take kept }

/-- Store a value into a variable, if there are both. -/
def store (vars : Variables) : Option Nat → Option Value → Variables
  | some x, some v => { vars with value := Function.update vars.value x v }
  | _, _ => vars

/-- A closure captures variables. -/
def capture (vars : Variables) (h : Handle) (xs : List Nat) : Variables :=
  { vars with captures := vars.captures ++ xs.map (h, ·) }

/-- The variable that a capture in a frame stands for. -/
def resolve? (vars : Variables) (frame : Frame) (capture : Capture) : Option Nat :=
  if capture.isLocal then vars.slots[frame.base + capture.index]?
  else (vars.captured frame.closure)[capture.index]?

/-- The variables that captures stand for, up to the first one that stands for none. -/
def resolveAll (vars : Variables) (frame : Frame) : List Capture → List Nat
  | [] => []
  | capture :: rest =>
    match vars.resolve? frame capture with
    | some x => x :: vars.resolveAll frame rest
    | none => []

end Variables

namespace Machine

/-- What the closure captures that the next instruction makes of a function constant. -/
def nextCaptures? (m : Machine) (index : Nat) : Option (List Capture) := do
  let frame ← m.frames.head?
  let f ← m.heap.function? frame.function
  let h ← (← f.chunk.constant? index).handle?
  let g ← m.heap.function? h
  (Reader.captures f.chunk.code g.captureCount m.nextIp).1

/-- The closure that an instruction has pushed, and what it is to capture. -/
def pushed? (m m' : Machine) (index : Nat) : Option (Handle × List Capture) := do
  let h ← (← m'.stack[m.stack.size]?).handle?
  return (h, ← m.nextCaptures? index)

/-- The slot of the callee or receiver below the arguments. -/
def callee (m : Machine) (count : Nat) : Nat := m.stack.size - 1 - count

/-- How many of the lowest slots the next instruction leaves on the stack if it gets through. A call
may drop the arguments. -/
def staying (m m' : Machine) : Nat :=
  match m.next?, m.frames.head? with
  | some ⟨.call, _⟩, _ | some ⟨.invoke, _⟩, _ => m'.stack.size
  | some ⟨.ret, _⟩, some frame => min frame.base (m.stack.size - 1)
  | some ⟨op, _⟩, _ => m.stack.size - op.taken
  | none, _ => m.stack.size

/-- The next instruction closes the captured variable of a slot over what is in the slot: it is made
for this slot, or it returns from the frame of the slot with a result from above. -/
def closes (m : Machine) (slot : Nat) : Bool :=
  match m.next?, m.frames.head? with
  | some ⟨.closeUpvalue, _⟩, _ => slot + 1 = m.stack.size
  | some ⟨.ret, _⟩, some frame => frame.base ≤ slot ∧ slot + 1 < m.stack.size
  | _, _ => false

end Machine

namespace Variables

/-- What the next instruction of a machine does with variables, on the way to another machine. The
lowest slots keep their variables. Local variables and captured variables are stored into, and so
are those in the slot of a callee that is replaced; new closures capture variables. -/
def after (vars : Variables) (m m' : Machine) (kept : Nat) : Variables :=
  let vars := vars.refill kept m'.stack
  match m.next?, m.frames.head? with
  | some ⟨op, operands⟩, some frame =>
    let a := operands.getD 0 0
    let b := operands.getD 1 0
    match op with
    | .setLocal => vars.store vars.slots[frame.base + a]? m.stack.back?
    | .setUpvalue => vars.store (vars.captured frame.closure)[a]? m.stack.back?
    | .call => vars.store vars.slots[m.callee a]? m'.stack[m.callee a]?
    | .invoke => vars.store vars.slots[m.callee b]? m'.stack[m.callee b]?
    | .closure =>
      match m.pushed? m' a with
      | some (h, captures) => vars.capture h (vars.resolveAll frame captures)
      | none => vars
    | _ => vars
  | _, _ => vars

/-- Slots are on the stack when they are captured: a capture that stands for no variable is none of
a slot. -/
def inside (vars : Variables) (m m' : Machine) (kept : Nat) : Bool :=
  let vars := vars.refill kept m'.stack
  match m.next?, m.frames.head? with
  | some ⟨.closure, operands⟩, some frame =>
    match m.pushed? m' (operands.getD 0 0) with
    | some (_, captures) => captures[(vars.resolveAll frame captures).length]?.all (!·.isLocal)
    | none => true
  | _, _ => true

/-- The next instruction treats captured slots as it should: they are on the stack when they are
captured, and their variables are closed when they leave it. -/
structure Obeys (vars : Variables) (m m' : Machine) (kept : Nat) : Prop where
  inside : vars.inside m m' kept
  closed : ∀ slot ∈ vars.capturedSlots, slot < kept ∨ m.closes slot

instance (vars : Variables) (m m' : Machine) (kept : Nat) : Decidable (vars.Obeys m m' kept) :=
  decidable_of_iff
    (vars.inside m m' kept ∧ ∀ slot ∈ vars.capturedSlots, slot < kept ∨ m.closes slot)
    ⟨fun ⟨inside, closed⟩ => ⟨inside, closed⟩, fun ⟨inside, closed⟩ => ⟨inside, closed⟩⟩

/-! ## Objects that change -/

end Variables

namespace Heap

variable {heap : Heap} {h u : Handle}

theorem upvalue?_setUpvalue {state : Upvalue} (found : heap.upvalue? u = some state)
    (state' : Upvalue) (k : Handle) :
    (heap.setUpvalue u state').upvalue? k = if k = u then some state' else heap.upvalue? k := by
  by_cases eq : k = u
  · rw [if_pos eq, upvalue?_eq_some_iff, setUpvalue, get?_modify, if_pos eq, eq,
      get?_of_upvalue? found, Option.map_some]
  · rw [if_neg eq, upvalue?, setUpvalue, get?_modify, if_neg eq, ← upvalue?]

/-- Changing an object makes no new one. -/
theorem before_setUpvalue {state : Upvalue} (found : heap.upvalue? u = some state)
    (state' : Upvalue) (k : Handle) (after : Upvalue)
    (changed : (heap.setUpvalue u state').upvalue? k = some after) :
    ∃ before, heap.upvalue? k = some before := by
  rw [upvalue?_setUpvalue found] at changed
  split at changed
  next eq => exact ⟨_, eq ▸ found⟩
  next => exact ⟨_, changed⟩

theorem captured?_setUpvalue {state : Upvalue} (found : heap.upvalue? u = some state)
    (state' : Upvalue) (k : Handle) :
    (heap.setUpvalue u state').captured? k = heap.captured? k := by
  by_cases eq : k = u
  · rw [captured?, captured?, setUpvalue, get?_modify, if_pos eq, eq, get?_of_upvalue? found,
      Option.map_some]
  · rw [captured?, setUpvalue, get?_modify, if_neg eq, ← captured?]

theorem upvalue?_pushCaptured {us : Array Handle} (closure : heap.captured? h = some us)
    (u k : Handle) : (heap.pushCaptured h u).upvalue? k = heap.upvalue? k := by
  obtain ⟨f, reserved, found⟩ := get?_of_captured? closure
  by_cases eq : k = h
  · rw [upvalue?, upvalue?, pushCaptured, get?_modify, if_pos eq, eq, found, Option.map_some]
  · rw [upvalue?, pushCaptured, get?_modify, if_neg eq, ← upvalue?]

theorem captured?_pushCaptured {us : Array Handle} (closure : heap.captured? h = some us)
    (u k : Handle) :
    (heap.pushCaptured h u).captured? k = if k = h then some (us.push u) else heap.captured? k := by
  obtain ⟨f, reserved, found⟩ := get?_of_captured? closure
  by_cases eq : k = h
  · rw [if_pos eq, captured?, pushCaptured, get?_modify, if_pos eq, eq, found, Option.map_some]
  · rw [if_neg eq, captured?, pushCaptured, get?_modify, if_neg eq, ← captured?]

end Heap

namespace Variables

/-! ## Describing a machine -/

/-- The heap and the stack hold what the variables say. Each object that stands for a captured
variable is assigned one, and no two are assigned the same. -/
structure Describe (vars : Variables) (owner : Handle → Nat) (heap : Heap) (stack : Array Value) :
    Prop where
  size : vars.slots.length = stack.size
  distinct : vars.slots.Nodup
  old : ∀ x ∈ vars.slots, x < vars.count
  caught : ∀ x, vars.IsCaptured x → x < vars.count
  unused : ∀ h, heap.cells.size ≤ h.index → vars.captured h = []
  slot : ∀ (j x : Nat), vars.slots[j]? = some x → stack[j]? = some (vars.value x)
  closure : ∀ h us, heap.captured? h = some us → vars.captured h = us.toList.map owner
  opened : ∀ u j, heap.upvalue? u = some (.opened j) → vars.slots[j]? = some (owner u)
  closed : ∀ u v, heap.upvalue? u = some (.closed v) →
    vars.value (owner u) = v ∧ owner u ∉ vars.slots
  owned : ∀ u state, heap.upvalue? u = some state → owner u < vars.count
  apart : ∀ u u' state state', heap.upvalue? u = some state → heap.upvalue? u' = some state' →
    owner u = owner u' → u = u'

/-- The variables of the objects have been captured. -/
def Catch (vars : Variables) (owner : Handle → Nat) (heap : Heap) : Prop :=
  ∀ u state, heap.upvalue? u = some state → vars.IsCaptured (owner u)

variable {vars : Variables} {owner : Handle → Nat} {heap heap' : Heap} {stack stack' : Array Value}
  {kept j x : Nat} {v : Value} {u h : Handle} {xs : List Nat}

/-! ## Slots -/

theorem mem_capturedSlots_iff :
    j ∈ vars.capturedSlots ↔ ∃ x, vars.slots[j]? = some x ∧ vars.IsCaptured x := by
  simp only [capturedSlots, List.mem_map, List.mem_filter, decide_eq_true_eq, Prod.exists,
    exists_eq_right]
  exact exists_congr fun x => and_congr_left fun _ => List.mem_zipIdx_iff_getElem?

theorem foldl_push_captures (vs : List Value) (vars : Variables) :
    (vs.foldl push vars).captures = vars.captures := by
  induction vs generalizing vars with
  | nil => rfl
  | cons v rest ih => exact ih (vars.push v)

@[simp] theorem captures_refill (vars : Variables) (kept : Nat) (stack : Array Value) :
    (vars.refill kept stack).captures = vars.captures := foldl_push_captures _ _

theorem refill_of_size_le (le : stack.size ≤ kept) :
    vars.refill kept stack = { vars with slots := vars.slots.take kept } := by
  rw [refill, List.drop_eq_nil_of_le (by simpa using le), List.foldl_nil]

theorem captured_congr {vars' : Variables} (same : vars'.captures = vars.captures) (h : Handle) :
    vars'.captured h = vars.captured h := by rw [captured, captured, same]

theorem isCaptured_congr {vars' : Variables} (same : vars'.captures = vars.captures) :
    vars'.IsCaptured x ↔ vars.IsCaptured x := by rw [IsCaptured, IsCaptured, same]

theorem captured_capture (vars : Variables) (h k : Handle) (xs : List Nat) :
    (vars.capture h xs).captured k = vars.captured k ++ if h = k then xs else [] := by
  simp only [captured, capture, List.filter_append, List.map_append, List.filter_map]
  split <;> simp_all [Function.comp_def]

theorem isCaptured_capture :
    (vars.capture h xs).IsCaptured x ↔ vars.IsCaptured x ∨ x ∈ xs := by
  simp [IsCaptured, capture, or_and_right, exists_or]

theorem capture_nil (vars : Variables) (h : Handle) : vars.capture h [] = vars := by
  simp [capture]

theorem capture_capture (vars : Variables) (h : Handle) (xs ys : List Nat) :
    (vars.capture h xs).capture h ys = vars.capture h (xs ++ ys) := by
  simp [capture]

/-! ## Slots leave the stack -/

namespace Describe

theorem lt_size (describe : vars.Describe owner heap stack) {u : Handle} {j : Nat}
    (found : heap.upvalue? u = some (.opened j)) : j < stack.size := by
  obtain ⟨lt, -⟩ := List.getElem?_eq_some_iff.mp (describe.opened u j found)
  exact describe.size ▸ lt

/-- Objects that were there before have their variables, and no two have the same. -/
theorem assigned (describe : vars.Describe owner heap stack)
    (before : ∀ u state, heap'.upvalue? u = some state →
      ∃ state', heap.upvalue? u = some state') :
    (∀ u state, heap'.upvalue? u = some state → owner u < vars.count) ∧
    ∀ u u' state state', heap'.upvalue? u = some state → heap'.upvalue? u' = some state' →
      owner u = owner u' → u = u' := by
  refine ⟨fun u state found => ?_, fun u u' state state' found found' => ?_⟩
  · obtain ⟨state', found⟩ := before u state found
    exact describe.owned u state' found
  · obtain ⟨state₁, found⟩ := before u state found
    obtain ⟨state₂, found'⟩ := before u' state' found'
    exact describe.apart u u' state₁ state₂ found found'

/-- A new variable is not assigned to any object. -/
theorem push (describe : vars.Describe owner heap stack) (v : Value) :
    (vars.push v).Describe owner heap (stack.push v) := by
  -- Older variables keep their values.
  have value {x : Nat} (lt : x < vars.count) : (vars.push v).value x = vars.value x :=
    Function.update_of_ne lt.ne _ _
  have below {j x : Nat} (found : vars.slots[j]? = some x) : (vars.push v).slots[j]? = some x := by
    rw [Variables.push, List.getElem?_append_left (List.getElem?_eq_some_iff.mp found).1, found]
  refine { describe with
    size := ?_, distinct := ?_, old := ?_, caught := ?_, slot := ?_, opened := ?_, closed := ?_
    owned := ?_ }
  · simp [Variables.push, describe.size]
  · refine List.nodup_append.mpr ⟨describe.distinct, List.nodup_singleton _, fun x mem y eq => ?_⟩
    have lt := describe.old x mem
    have := List.mem_singleton.mp eq
    omega
  · intro x mem
    rcases List.mem_append.mp mem with mem | eq
    · exact Nat.lt_succ_of_lt (describe.old x mem)
    · obtain rfl := List.mem_singleton.mp eq
      exact Nat.lt_succ_self _
  · exact fun x captured => Nat.lt_succ_of_lt (describe.caught x captured)
  · intro j x found
    rcases Nat.lt_or_ge j vars.slots.length with lt | le
    · rw [Variables.push, List.getElem?_append_left lt] at found
      rw [value (describe.old x (List.mem_of_getElem? found)),
        Array.getElem?_push_lt (describe.size ▸ lt), ← describe.slot j x found,
        Array.getElem?_eq_getElem]
    · rw [Variables.push, List.getElem?_append_right le, List.getElem?_singleton] at found
      split at found
      · cases found
        have top : j = stack.size := by
          have := describe.size
          omega
        rw [Array.getElem?_push, if_pos top]
        change some v = some (Function.update vars.value vars.count v vars.count)
        rw [Function.update_self]
      · cases found
  · exact fun u j found => below (describe.opened u j found)
  · intro u v' found
    have lt := describe.owned u _ found
    obtain ⟨same, gone⟩ := describe.closed u v' found
    rw [value lt]
    exact ⟨same, by simp [Variables.push, gone, lt.ne]⟩
  · exact fun u state found => Nat.lt_succ_of_lt (describe.owned u state found)

theorem pushAll (describe : vars.Describe owner heap stack) (vs : List Value) :
    (vs.foldl Variables.push vars).Describe owner heap (stack ++ vs.toArray) := by
  induction vs generalizing vars stack with
  | nil => simpa using describe
  | cons v rest ih => simpa using ih (describe.push v)

/-- The slots above some others leave the stack. Objects that point to these slots are closed over
the values that are there. -/
theorem cut (describe : vars.Describe owner heap stack)
    (grown : heap.cells.size ≤ heap'.cells.size)
    (opened : ∀ u j, heap'.upvalue? u = some (.opened j) →
      heap.upvalue? u = some (.opened j) ∧ j < kept)
    (closed : ∀ u v, heap'.upvalue? u = some (.closed v) → heap.upvalue? u = some (.closed v) ∨
      ∃ j, heap.upvalue? u = some (.opened j) ∧ kept ≤ j ∧ stack[j]? = some v)
    (closure : ∀ h us, heap'.captured? h = some us →
      heap.captured? h = some us ∨ us = #[] ∧ heap.cells.size ≤ h.index) :
    ({ vars with slots := vars.slots.take kept } : Variables).Describe owner heap'
      (stack.take kept) := by
  have before (u : Handle) (state : Upvalue) (found : heap'.upvalue? u = some state) :
      ∃ state', heap.upvalue? u = some state' := by
    cases state with
    | opened j => exact ⟨_, (opened u j found).1⟩
    | closed v => exact (closed u v found).elim (⟨_, ·⟩) fun ⟨j, found, _⟩ => ⟨_, found⟩
  obtain ⟨owned, apart⟩ := describe.assigned before
  refine { describe with
    size := ?_, distinct := ?_, old := ?_, unused := ?_, slot := ?_, closure := ?_, opened := ?_
    closed := ?_, owned, apart }
  · simp [describe.size]
  · exact describe.distinct.sublist (List.take_sublist _ _)
  · exact fun x mem => describe.old x (List.mem_of_mem_take mem)
  · exact fun h new => describe.unused h (grown.trans new)
  · intro j x found
    rw [List.getElem?_take] at found
    split at found
    next lt =>
      have at_ := describe.slot j x found
      have inside := (Array.getElem?_eq_some_iff.mp at_).1
      rw [Array.take_eq_extract, Array.getElem?_extract, if_pos (by omega), Nat.zero_add, at_]
    next => cases found
  · intro h us found
    rcases closure h us found with found | ⟨rfl, new⟩
    · exact describe.closure h us found
    · exact describe.unused h new
  · intro u j found
    obtain ⟨found, lt⟩ := opened u j found
    exact (List.getElem?_take_of_lt lt).trans (describe.opened u j found)
  · intro u v found
    rcases closed u v found with found | ⟨j, found, le, at_⟩
    · obtain ⟨same, gone⟩ := describe.closed u v found
      exact ⟨same, fun mem => gone (List.mem_of_mem_take mem)⟩
    -- The slot of the variable was cut off, and a variable lives in one slot only.
    · have slot := describe.opened u j found
      refine ⟨Option.some.inj ((describe.slot j _ slot).symm.trans at_), fun mem => ?_⟩
      obtain ⟨i, at_⟩ := List.mem_iff_getElem?.mp mem
      rw [List.getElem?_take] at at_
      split at at_
      next lt =>
        have inside := (List.getElem?_eq_some_iff.mp at_).1
        have := (List.getElem?_inj inside describe.distinct).mp (at_.trans slot.symm)
        omega
      next => cases at_

/-- Some slots leave the stack, and new variables live in the slots that follow. -/
theorem refill (describe : vars.Describe owner heap stack)
    (grown : heap.cells.size ≤ heap'.cells.size)
    (opened : ∀ u j, heap'.upvalue? u = some (.opened j) →
      heap.upvalue? u = some (.opened j) ∧ j < kept)
    (closed : ∀ u v, heap'.upvalue? u = some (.closed v) → heap.upvalue? u = some (.closed v) ∨
      ∃ j, heap.upvalue? u = some (.opened j) ∧ kept ≤ j ∧ stack[j]? = some v)
    (closure : ∀ h us, heap'.captured? h = some us →
      heap.captured? h = some us ∨ us = #[] ∧ heap.cells.size ≤ h.index)
    (same : ∀ j < kept, stack'[j]? = stack[j]?) :
    (vars.refill kept stack').Describe owner heap' stack' := by
  have lowest : stack.toList.take kept = stack'.toList.take kept := by
    refine List.ext_getElem? fun i => ?_
    rw [List.getElem?_take, List.getElem?_take]
    split
    next lt => simpa using (same i lt).symm
    next => rfl
  have parts : stack.take kept ++ (stack'.toList.drop kept).toArray = stack' := by
    refine Array.toList_inj.mp ?_
    simp [lowest]
  have refilled := (describe.cut grown opened closed closure).pushAll (stack'.toList.drop kept)
  rwa [parts] at refilled

/-- The same, if captured variables and closures are as they were. -/
theorem share {m m' : Machine} (describe : vars.Describe owner m.heap m.stack)
    (shares : m.Shares m' kept)
    (captured : ∀ u j, m.heap.upvalue? u = some (.opened j) → j < kept) :
    (vars.refill kept m'.stack).Describe owner m'.heap m'.stack := by
  refine describe.refill shares.calm.grown (fun u j found => ?_)
    (fun u v found => .inl (shares.calm.upvalue u _ found)) shares.calm.closure shares.same
  have found := shares.calm.upvalue u _ found
  exact ⟨found, captured u j found⟩

/-- The same, if captured variables are closed that are about to leave the stack, and no others
leave it. -/
theorem closeFrom {c : Custody} {m : Machine} (intact : m.Intact c) (slot : Nat)
    (describe : vars.Describe owner m.heap stack)
    (each : ∀ u j, m.heap.upvalue? u = some (.opened j) →
      j < slot ∧ j < kept ∨ slot ≤ j ∧ kept ≤ j ∧ m.stack[j]? = stack[j]?)
    (same : ∀ j < kept, stack'[j]? = stack[j]?) :
    (vars.refill kept stack').Describe owner (m.closeFrom slot).heap stack' := by
  have at_ := intact.get?_closeFrom slot
  refine describe.refill (Machine.size_cells_closeFrom intact.toSound slot).ge (fun u j found => ?_)
    (fun u v found => ?_) (fun h us found => .inl ?_) same
  · have found := get?_of_upvalue? found
    rw [at_] at found
    split at found
    next i open' =>
      split at found
      · cases found
      next below =>
        cases found
        have open' := upvalue?_eq_some_iff.mpr open'
        rcases each u j open' with ⟨-, lt⟩ | ⟨le, -⟩
        · exact ⟨open', lt⟩
        · exact absurd le below
    next other => exact absurd found (other j)
  · have found := get?_of_upvalue? found
    rw [at_] at found
    split at found
    next j open' =>
      split at found
      next above =>
        cases found
        have open' := upvalue?_eq_some_iff.mpr open'
        rcases each u j open' with ⟨lt, -⟩ | ⟨-, le, here⟩
        · exact absurd above (Nat.not_le_of_lt lt)
        · refine .inr ⟨j, open', le, ?_⟩
          rw [here, Array.getElem?_eq_getElem (describe.lt_size open'), Option.getD_some]
      next => cases found
    next => exact .inl (upvalue?_eq_some_iff.mpr found)
  · obtain ⟨f, reserved, found⟩ := get?_of_captured? found
    rw [at_] at found
    split at found
    next => split at found <;> cases found
    next => exact captured?_eq_some_iff.mpr ⟨f, reserved, found⟩

/-! ## Storing -/

/-- A value is stored into the variable of a slot. -/
theorem store (describe : vars.Describe owner heap stack) (at_ : vars.slots[j]? = some x)
    (v : Value) :
    (vars.store (some x) (some v)).Describe owner heap (stack.setIfInBounds j v) := by
  refine { describe with size := ?_, slot := ?_, closed := ?_ }
  · exact describe.size.trans (Array.size_setIfInBounds ..).symm
  · intro i y found
    change vars.slots[i]? = some y at found
    change (stack.setIfInBounds j v)[i]? = some (Function.update vars.value x v y)
    have inside := (Array.getElem?_eq_some_iff.mp (describe.slot j x at_)).1
    by_cases eq : j = i
    · obtain rfl : x = y := by simpa [← eq, at_] using found
      rw [Array.getElem?_setIfInBounds, if_pos eq, if_pos inside, Function.update_self]
    -- The variable of another slot is another variable.
    · have ne : y ≠ x := by
        rintro rfl
        have lt := (List.getElem?_eq_some_iff.mp at_).1
        exact eq ((List.getElem?_inj lt describe.distinct).mp (at_.trans found.symm))
      rw [Array.getElem?_setIfInBounds_ne eq, Function.update_of_ne ne, describe.slot i y found]
  · intro u w found
    obtain ⟨same, gone⟩ := describe.closed u w found
    have ne : owner u ≠ x := fun eq => gone (eq ▸ List.mem_of_getElem? at_)
    exact ⟨(Function.update_of_ne ne ..).trans same, gone⟩

/-- A value is stored into the variable of a closed object. -/
theorem storeClosed (describe : vars.Describe owner heap stack) {w : Value}
    (found : heap.upvalue? u = some (.closed w)) (v : Value) :
    (vars.store (some (owner u)) (some v)).Describe owner (heap.setUpvalue u (.closed v))
      stack := by
  have gone := (describe.closed u w found).2
  have upvalue (k : Handle) : (heap.setUpvalue u (.closed v)).upvalue? k =
      if k = u then some (.closed v) else heap.upvalue? k := upvalue?_setUpvalue found _ k
  obtain ⟨owned, apart⟩ := describe.assigned (before_setUpvalue found (.closed v))
  refine { describe with
    unused := ?_, slot := ?_, closure := ?_, opened := ?_, closed := ?_, owned, apart }
  · exact fun h new => describe.unused h ((size_cells_modify heap u _).symm.le.trans new)
  · intro i y here
    have ne : y ≠ owner u := fun eq => gone (eq ▸ List.mem_of_getElem? here)
    rw [describe.slot i y here]
    exact congrArg some (Function.update_of_ne ne ..).symm
  · intro h us captured
    rw [captured?_setUpvalue found] at captured
    exact describe.closure h us captured
  · intro k i open'
    rw [upvalue] at open'
    split at open'
    next => cases open'
    next => exact describe.opened k i open'
  · intro k w' closed
    rw [upvalue] at closed
    split at closed
    next eq =>
      cases closed
      subst eq
      exact ⟨Function.update_self .., gone⟩
    next ne =>
      obtain ⟨same, gone⟩ := describe.closed k w' closed
      have ne : owner k ≠ owner u := fun eq => ne (describe.apart k u _ _ closed found eq)
      exact ⟨(Function.update_of_ne ne ..).trans same, gone⟩

/-! ## Capturing -/

/-- A closure captures the variable of an object. -/
theorem pushCaptured (describe : vars.Describe owner heap stack) {state : Upvalue}
    {us : Array Handle} (found : heap.upvalue? u = some state)
    (closure : heap.captured? h = some us) :
    (vars.capture h [owner u]).Describe owner (heap.pushCaptured h u) stack := by
  have upvalue := upvalue?_pushCaptured closure u
  refine { describe with
    caught := ?_, unused := ?_, closure := ?_, opened := ?_, closed := ?_, owned := ?_,
    apart := ?_ }
  · intro x captured
    rcases isCaptured_capture.mp captured with captured | mem
    · exact describe.caught x captured
    · obtain rfl := List.mem_singleton.mp mem
      exact describe.owned u state found
  · intro k new
    rw [Heap.pushCaptured, size_cells_modify] at new
    obtain ⟨f, reserved, live⟩ := get?_of_captured? closure
    have lt := lt_size_of_contains (contains_of_get? live)
    have ne : h ≠ k := by
      rintro rfl
      omega
    rw [captured_capture, if_neg ne, List.append_nil, describe.unused k new]
  · intro k us' captured
    rw [captured?_pushCaptured closure] at captured
    rw [captured_capture]
    split at captured
    next eq =>
      cases captured
      subst eq
      rw [if_pos rfl, describe.closure k us closure]
      simp
    next ne => rw [if_neg (Ne.symm ne), List.append_nil, describe.closure k us' captured]
  · exact fun k i open' => describe.opened k i ((upvalue k).symm.trans open')
  · exact fun k w closed => describe.closed k w ((upvalue k).symm.trans closed)
  · exact fun k state found => describe.owned k state ((upvalue k).symm.trans found)
  · exact fun k k' state state' found found' =>
      describe.apart k k' state state' ((upvalue k).symm.trans found)
        ((upvalue k').symm.trans found')

/-- A new object points to a slot. -/
theorem allocated {c : Custody} {roots : List Handle} {after : Heap} (sound : heap.Sound c)
    (describe : vars.Describe owner heap stack)
    (allocated : heap.Allocated (.upvalue (.opened j)) roots u after)
    (at_ : vars.slots[j]? = some x) (new : ∀ k, heap.upvalue? k ≠ some (.opened j)) :
    vars.Describe (Function.update owner u x) after stack := by
  -- An object that was there before has another variable.
  have other {k : Handle} {state : Upvalue} (found : heap.upvalue? k = some state) :
      owner k ≠ x := by
    rintro rfl
    cases state with
    | opened i =>
      have here := describe.opened k i found
      have lt := (List.getElem?_eq_some_iff.mp at_).1
      obtain rfl := (List.getElem?_inj lt describe.distinct).mp (at_.trans here.symm)
      exact new k found
    | closed v => exact (describe.closed k v found).2 (List.mem_of_getElem? at_)
  have upvalue {k : Handle} {state : Upvalue} (found : after.upvalue? k = some state) :
      k = u ∧ state = .opened j ∨ k ≠ u ∧ heap.upvalue? k = some state := by
    have found := get?_of_upvalue? found
    by_cases eq : k = u
    · rw [eq, allocated.get?] at found
      cases found
      exact .inl ⟨eq, rfl⟩
    · exact .inr ⟨eq, upvalue?_eq_some_iff.mpr (allocated.get?_old eq found)⟩
  refine { describe with
    unused := ?_, closure := ?_, opened := ?_, closed := ?_, owned := ?_, apart := ?_ }
  · exact fun h new => describe.unused h (allocated.grown.trans new)
  · intro h us found
    obtain ⟨f, reserved, found⟩ := get?_of_captured? found
    have ne : h ≠ u := by
      rintro rfl
      rw [allocated.get?] at found
      cases found
    have found := allocated.get?_old ne found
    rw [describe.closure h us (captured?_eq_some_iff.mpr ⟨f, reserved, found⟩)]
    -- What the closure has captured was there before.
    refine List.map_congr_left fun k mem => (Function.update_of_ne ?_ ..).symm
    have live := (sound.object h _ found).2 k (Array.mem_toList_iff.mp mem)
    exact allocated.ne_of_lt (lt_size_of_contains (contains_of_kind? live))
  · intro k i found
    rcases upvalue found with ⟨rfl, eq⟩ | ⟨ne, found⟩
    · cases eq
      rw [Function.update_self, at_]
    · rw [Function.update_of_ne ne, describe.opened k i found]
  · intro k w found
    rcases upvalue found with ⟨-, eq⟩ | ⟨ne, found⟩
    · cases eq
    · rw [Function.update_of_ne ne]
      exact describe.closed k w found
  · intro k state found
    rcases upvalue found with ⟨rfl, -⟩ | ⟨ne, found⟩
    · rw [Function.update_self]
      exact describe.old x (List.mem_of_getElem? at_)
    · rw [Function.update_of_ne ne]
      exact describe.owned k state found
  · intro k k' state state' found found' eq
    rcases upvalue found with ⟨rfl, -⟩ | ⟨ne, found⟩ <;>
      rcases upvalue found' with ⟨rfl, -⟩ | ⟨ne', found'⟩
    · rfl
    · rw [Function.update_self, Function.update_of_ne ne'] at eq
      exact absurd eq.symm (other found')
    · rw [Function.update_self, Function.update_of_ne ne] at eq
      exact absurd eq (other found)
    · rw [Function.update_of_ne ne, Function.update_of_ne ne'] at eq
      exact describe.apart k k' state state' found found' eq

end Describe

end Variables

end ScriptMachine
