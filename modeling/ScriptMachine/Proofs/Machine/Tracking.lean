/-
# Instructions keep track of variables

If variables describe a machine, then what an instruction does to them leads to
variables that describe the machine afterwards, whether the instruction gets
through or not. The instruction has to treat captured slots as it should.

Where a closure captures variables, this goes through states in which it has
captured some of them. An object that has just been made for a slot stands for
the variable of that slot from then on.

## Main definitions

* `Variables.Track` — the variables describe the machine, and its objects stand for captured ones
* `Variables.Carry` — an action does to the machine what its instruction does to the variables

## Main results

* `Exec.captureAll_leaves` — a closure captures variables one after the other
* `Carry.step` — a step does what its instruction should do with variables
-/

import ScriptMachine.Proofs.Machine.Variables

namespace ScriptMachine

open Heap

namespace Variables

/-- The variables describe the machine, and the objects stand for variables that have been
captured. -/
def Track (vars : Variables) (m : Machine) : Prop :=
  ∃ owner, vars.Describe owner m.heap m.stack ∧ vars.Catch owner m.heap

variable {vars vars' : Variables} {owner : Handle → Nat} {heap heap' : Heap} {m m' : Machine}
  {kept j x slot : Nat} {v : Value} {u h : Handle} {f : Frame}

theorem Catch.mono (caught : vars.Catch owner heap) (same : vars'.captures = vars.captures)
    (before : ∀ u state, heap'.upvalue? u = some state →
      ∃ state', heap.upvalue? u = some state') : vars'.Catch owner heap' := by
  intro u state found
  obtain ⟨state', found⟩ := before u state found
  exact (isCaptured_congr same).mpr (caught u state' found)

/-- The slot of an open object has been captured. -/
theorem mem_capturedSlots (describe : vars.Describe owner m.heap m.stack)
    (caught : vars.Catch owner m.heap) (found : m.heap.upvalue? u = some (.opened j)) :
    j ∈ vars.capturedSlots :=
  mem_capturedSlots_iff.mpr ⟨owner u, describe.opened u j found, caught u _ found⟩

theorem refill_of_size_eq {stack stack' : Array Value}
    (describe : vars.Describe owner heap stack) (same : stack'.size = stack.size) :
    vars.refill stack.size stack' = vars := by
  rw [refill_of_size_le same.le, List.take_of_length_le describe.size.le]

theorem store_none (vars : Variables) (v? : Option Value) : vars.store none v? = vars := rfl

theorem store_none_right (vars : Variables) (x? : Option Nat) : vars.store x? none = vars := by
  cases x? <;> rfl

@[simp] theorem captures_store (vars : Variables) (x? : Option Nat) (v? : Option Value) :
    (vars.store x? v?).captures = vars.captures := by
  cases x? <;> cases v? <;> rfl

@[simp] theorem slots_store (vars : Variables) (x? : Option Nat) (v? : Option Value) :
    (vars.store x? v?).slots = vars.slots := by
  cases x? <;> cases v? <;> rfl

/-- A value is stored into a slot, if there are both. -/
theorem Describe.storeAt {stack : Array Value} (describe : vars.Describe owner heap stack)
    (j : Nat) (v? : Option Value) :
    (vars.store vars.slots[j]? v?).Describe owner heap
      (v?.elim stack fun v => stack.setIfInBounds j v) := by
  cases v? with
  | none => rwa [store_none_right]
  | some v =>
    cases at_ : vars.slots[j]? with
    | none =>
      have outside := List.getElem?_eq_none_iff.mp at_
      rw [store_none, Option.elim_some, Array.setIfInBounds_eq_of_size_le (describe.size ▸ outside)]
      exact describe
    | some x => exact describe.store at_ v

theorem Track.lt_size (track : vars.Track m) (mem : j ∈ vars.capturedSlots) : j < m.stack.size := by
  obtain ⟨owner, describe, -⟩ := track
  obtain ⟨x, at_, -⟩ := mem_capturedSlots_iff.mp mem
  exact describe.size ▸ (List.getElem?_eq_some_iff.mp at_).1

theorem Track.refill_eq (track : vars.Track m) (same : m'.stack.size = m.stack.size) :
    vars.refill m.stack.size m'.stack = vars := by
  obtain ⟨owner, describe, -⟩ := track
  exact refill_of_size_eq describe same

theorem Track.size_slots (track : vars.Track m) : vars.slots.length = m.stack.size := by
  obtain ⟨owner, describe, -⟩ := track
  exact describe.size

/-! ## Leaving variables alone -/

theorem Track.share (track : vars.Track m) (shares : m.Shares m' kept)
    (inside : ∀ j ∈ vars.capturedSlots, j < kept) : (vars.refill kept m'.stack).Track m' := by
  obtain ⟨owner, describe, caught⟩ := track
  refine ⟨owner, describe.share shares fun u j found => ?_,
    caught.mono (captures_refill ..)
      fun u state found => ⟨state, shares.calm.upvalue u state found⟩⟩
  exact inside j (mem_capturedSlots describe caught found)

/-- All slots stay on the stack. -/
theorem Track.shareAll (track : vars.Track m) (shares : m.Shares m' m.stack.size) :
    (vars.refill m.stack.size m'.stack).Track m' :=
  track.share shares fun _ mem => track.lt_size mem

/-- Nothing happens to the stack and to captured variables. -/
theorem Track.calm {config : Config} (track : vars.Track m) (calm : m.heap.Calm config m'.heap)
    (stack : m'.stack = m.stack) : vars.Track m' := by
  obtain ⟨owner, describe, caught⟩ := track
  have refilled : (vars.refill m.stack.size m'.stack).Describe owner m'.heap m'.stack := by
    refine describe.refill calm.grown (fun u j found => ?_)
      (fun u v found => .inl (calm.upvalue u _ found)) calm.closure fun j _ => by rw [stack]
    have found := calm.upvalue u _ found
    exact ⟨found, describe.lt_size found⟩
  rw [refill_of_size_eq describe (by rw [stack])] at refilled
  exact ⟨owner, refilled, caught.mono rfl fun u state found => ⟨state, calm.upvalue u state found⟩⟩

theorem Track.congr (track : vars.Track m) (heap : m'.heap = m.heap) (stack : m'.stack = m.stack) :
    vars.Track m' := by
  obtain ⟨owner, describe, caught⟩ := track
  exact ⟨owner, heap ▸ stack ▸ describe, heap ▸ caught⟩

/-- Captured variables are closed that are about to leave the stack. -/
theorem Track.closeFrom {stack : Array Value} (intact : m.Intact .any) (slot : Nat)
    (describe : vars.Describe owner m.heap stack) (caught : vars.Catch owner m.heap)
    (heap : m'.heap = (m.closeFrom slot).heap)
    (each : ∀ u j, m.heap.upvalue? u = some (.opened j) →
      j < slot ∧ j < kept ∨ slot ≤ j ∧ kept ≤ j ∧ m.stack[j]? = stack[j]?)
    (same : ∀ j < kept, m'.stack[j]? = stack[j]?) :
    (vars.refill kept m'.stack).Track m' := by
  refine ⟨owner, heap ▸ describe.closeFrom intact slot each same,
    caught.mono (captures_refill ..) fun u state found => ?_⟩
  rw [heap] at found
  have kind := (Machine.keeps_closeFrom intact.toSound slot u).kind
  rw [kind?_of_get? (get?_of_upvalue? found)] at kind
  obtain ⟨state', found, -⟩ := upvalue?_of_kind? kind.symm
  exact ⟨state', found⟩

/-! ## Storing values -/

theorem Track.storeAt (track : vars.Track m) (heap : m'.heap = m.heap) (v? : Option Value)
    (stack : m'.stack = v?.elim m.stack fun v => m.stack.setIfInBounds j v) :
    (vars.store vars.slots[j]? v?).Track m' := by
  obtain ⟨owner, describe, caught⟩ := track
  refine ⟨owner, ?_, ?_⟩
  · rw [heap, stack]
    exact describe.storeAt j v?
  · exact caught.mono (captures_store ..) fun u state found => ⟨state, by rwa [← heap]⟩

/-- The slot of a callee is overwritten, and slots above it may have left the stack. -/
theorem Track.overwrite (track : vars.Track m) (overwrites : m.Overwrites m' slot)
    (inside : ∀ j ∈ vars.capturedSlots, j < m'.stack.size) :
    let vars' := vars.refill m'.stack.size m'.stack
    (vars'.store vars'.slots[slot]? m'.stack[slot]?).Track m' := by
  obtain ⟨owner, describe, caught⟩ := track
  -- Before the slot was overwritten, the stack was a part of the old one.
  let before : Machine := { m' with stack := m.stack.take m'.stack.size }
  have size : before.stack.size = m'.stack.size := by
    have := overwrites.le
    simp only [before, Array.take_eq_extract, Array.size_extract]
    omega
  have same {i : Nat} (lt : i < m'.stack.size) : before.stack[i]? = m.stack[i]? := by
    have := overwrites.le
    simp only [before, Array.take_eq_extract]
    rw [Array.getElem?_extract, if_pos (by omega), Nat.zero_add]
  have shares : m.Shares before m'.stack.size :=
    ⟨overwrites.calm, overwrites.le, size.ge, fun i lt => same lt⟩
  have track := Track.share ⟨owner, describe, caught⟩ shares inside
  have refill : vars.refill m'.stack.size before.stack = vars.refill m'.stack.size m'.stack := by
    rw [refill_of_size_le size.le, refill_of_size_le (Nat.le_refl _)]
  rw [refill] at track
  -- Where the slot was not, nothing has changed.
  have rest {i : Nat} (ne : i ≠ slot) : m'.stack[i]? = before.stack[i]? := by
    by_cases lt : i < m'.stack.size
    · rw [same lt, overwrites.same i lt ne]
    · rw [Array.getElem?_eq_none (Nat.le_of_not_lt lt),
        Array.getElem?_eq_none (size.trans_le (Nat.le_of_not_lt lt))]
  have stack : m'.stack = m'.stack[slot]?.elim before.stack fun v =>
      before.stack.setIfInBounds slot v := by
    refine Array.ext_getElem? fun i => ?_
    cases found : m'.stack[slot]? with
    | none =>
      rw [Option.elim_none]
      by_cases eq : i = slot
      · have outside := Array.getElem?_eq_none_iff.mp found
        rw [eq, found, Array.getElem?_eq_none (size.trans_le outside)]
      · exact rest eq
    | some v =>
      rw [Option.elim_some]
      by_cases eq : slot = i
      · have lt := (Array.getElem?_eq_some_iff.mp found).1
        rw [Array.getElem?_setIfInBounds, if_pos eq, if_pos (size ▸ lt), ← eq, found]
      · rw [Array.getElem?_setIfInBounds_ne eq, rest (Ne.symm eq)]
  have heap : m'.heap = before.heap := rfl
  exact track.storeAt heap _ stack

end Variables

namespace Exec

variable {α β : Type} {vars : Variables} {m m' : Machine} {f : Frame} {kept j : Nat} {h : Handle}

namespace Leaves

variable {x : Exec α} {post : α → Machine → Prop} {halt : Machine → Prop}

theorem of_eq {a : α} (ran : x none m = .ok a m') (holds : post a m') : x.Leaves m post halt := by
  rw [Leaves, ran]
  exact holds

theorem orMalformed {flaw : Malformed} {o : Option α} (holds : ∀ a, o = some a → post a m)
    (halted : o = none → halt m) : (Exec.orMalformed flaw o).Leaves m post halt := by
  cases o with
  | none => exact halted rfl
  | some a => exact holds a rfl

theorem setIp {post : Unit → Machine → Prop} {ip : Nat} (holds : post ⟨⟩ (m.withIp ip)) :
    (Exec.setIp ip).Leaves m post halt := holds

theorem allocate {post : Handle → Machine → Prop} {object : Object}
    (holds : post (m.allocate object []).1 (m.allocate object []).2) :
    (Exec.allocate object).Leaves m post halt := holds

/-- The top value is looked at, if there is one. -/
theorem top {post : Value → Machine → Prop} (holds : ∀ v, m.stack.back? = some v → post v m)
    (halted : m.stack.back? = none → halt m) : (Exec.peek 0).Leaves m post halt := by
  refine .get_bind (.ite (fun _ => .orMalformed holds halted) fun empty => halted ?_)
  rw [Array.back?, Array.getElem?_eq_none (by omega)]

end Leaves

theorem head?_withIp (head : m.frames.head? = some f) (ip : Nat) :
    (m.withIp ip).frames.head? = some { f with ip } := by
  obtain ⟨rest, eq⟩ := List.head?_eq_some_iff.mp head
  rw [Machine.withIp, eq]
  rfl

theorem head?_fetched (head : m.frames.head? = some f) (events : List ExecutionEvent) :
    (m.fetched events).frames.head? = some { f with ip := m.nextIp } := head?_withIp head _

/-! ## Local variables and captured variables -/

theorem setLocal_leaves (head : m.frames.head? = some f) (slot : Nat) :
    (Exec.peek 0 >>= Exec.setLocal slot).Leaves m
      (fun _ m' => m'.heap = m.heap ∧
        m'.stack = m.stack.back?.elim m.stack fun v => m.stack.setIfInBounds (f.base + slot) v)
      fun m' => m'.heap = m.heap ∧
        m'.stack = m.stack.back?.elim m.stack fun v => m.stack.setIfInBounds (f.base + slot) v := by
  refine .bind (.top (fun v top => ?_) fun empty => ⟨rfl, by rw [empty, Option.elim_none]⟩)
  rw [top, Option.elim_some]
  refine .bind (.of_eq (frame_eq head) (.get_bind (.ite (fun inside => ?_) fun outside => ?_)))
  · exact .get_bind (.ite (fun _ => ⟨rfl, rfl⟩) fun outside => absurd inside outside)
  · exact ⟨rfl, (Array.setIfInBounds_eq_of_size_le (Nat.le_of_not_lt outside)).symm⟩

/-- The closure of the frame has captured the variables of its objects. -/
theorem captured_frame {owner : Handle → Nat} (intact : m.Intact .any)
    (describe : vars.Describe owner m.heap m.stack) (mem : f ∈ m.frames) :
    ∃ us, m.heap.captured? f.closure = some us ∧
      (∀ i : Nat, (vars.captured f.closure)[i]? = us[i]?.map owner) ∧
      ∀ u ∈ us, ∃ state, m.heap.upvalue? u = some state := by
  obtain ⟨object, closure, kind⟩ := kind?_eq_some_iff.mp (intact.closures f mem)
  cases object <;> cases kind
  next function us reserved =>
  have captured : m.heap.captured? f.closure = some us :=
    captured?_eq_some_iff.mpr ⟨function, reserved, closure⟩
  refine ⟨us, captured, fun i => ?_, fun u mem => ?_⟩
  · rw [describe.closure _ us captured]
    simp
  · obtain ⟨state, found, -⟩ := upvalue?_of_kind? ((intact.heap.object _ _ closure).2 u mem)
    exact ⟨state, found⟩

/-- The variable is the one that the closure of the frame has captured. -/
theorem setUpvalue_leaves (intact : m.Intact .any) (track : vars.Track m)
    (head : m.frames.head? = some f) (index : Nat) :
    (Exec.setUpvalue index).Leaves m
      (fun _ m' => (vars.store (vars.captured f.closure)[index]? m.stack.back?).Track m')
      fun m' => (vars.store (vars.captured f.closure)[index]? m.stack.back?).Track m' := by
  obtain ⟨owner, describe, caught⟩ := track
  have track : vars.Track m := ⟨owner, describe, caught⟩
  obtain ⟨us, captured, named, live⟩ :=
    captured_frame intact describe (List.mem_of_mem_head? head)
  rw [named]
  refine .bind (.bind (.of_eq (frame_eq head) (.get_bind (.orMalformed ?_ ?_))))
  · rw [captured, Option.bind_some]
    intro u at_
    rw [at_, Option.map_some]
    refine .bind (.top (fun v top => ?_) fun empty => ?_)
    · rw [top]
      obtain ⟨state, found⟩ := live u (Array.mem_of_getElem? at_)
      refine .get_bind (.bind (.of_eq (orBroken_eq (get?_of_upvalue? found) _) ?_))
      cases state with
      | opened slot =>
        have here := describe.opened u slot found
        have stored : (vars.store (some (owner u)) (some v)).Track
            { m with stack := m.stack.setIfInBounds slot v } := by
          rw [← here]
          refine track.storeAt ?_ (some v) ?_ <;> rfl
        exact .ite (fun inside => .get_bind (.ite (fun _ => stored) fun outside =>
          absurd inside outside)) fun outside => absurd (describe.lt_size found) outside
      | closed w =>
        exact ⟨owner, describe.storeClosed found v, caught.mono rfl (before_setUpvalue found _)⟩
    · rw [empty, Variables.store_none_right]
      exact track
  · rw [captured, Option.bind_some]
    intro outside
    rw [outside, Option.map_none, Variables.store_none]
    exact track

/-! ## Closing captured variables -/

theorem closeTop_leaves (intact : m.Intact .any) (track : vars.Track m) :
    Exec.closeTop.Leaves m
      (fun _ m' => (vars.refill (m.stack.size - 1) m'.stack).Track m')
      fun m' => m'.heap = m.heap ∧ m'.stack = m.stack := by
  obtain ⟨owner, describe, caught⟩ := track
  by_cases empty : m.stack.size = 0
  · rw [Leaves, Machine.closeTop_of_empty empty]
    exact ⟨rfl, rfl⟩
  refine .of_eq (Machine.closeTop_eq empty) (.closeFrom intact (m.stack.size - 1) describe caught
    rfl (fun u j found => ?_) fun j lt => ?_)
  · have lt := describe.lt_size found
    by_cases top : j + 1 = m.stack.size
    · exact .inr ⟨by omega, by omega, rfl⟩
    · exact .inl ⟨by omega, by omega⟩
  · rw [Array.getElem?_pop, if_pos lt]

/-- A return closes the captured variables of its frame before their slots leave the stack. -/
theorem returnValue_leaves (intact : m.Intact .any) (track : vars.Track m)
    (head : m.frames.head? = some f) :
    let closed (kept : Nat) := ∀ j ∈ vars.capturedSlots,
      j < kept ∨ f.base ≤ j ∧ j + 1 < m.stack.size
    Exec.returnValue.Leaves m
      (fun _ m' => closed (min f.base (m.stack.size - 1)) →
        (vars.refill (min f.base (m.stack.size - 1)) m'.stack).Track m')
      fun m' => closed (min m.stack.size m'.stack.size) →
        (vars.refill (min m.stack.size m'.stack.size) m'.stack).Track m' := by
  intro closed
  by_cases empty : m.stack.size = 0
  · rw [Leaves, Machine.returnValue_of_empty empty]
    intro _
    rwa [Nat.min_self, track.refill_eq rfl]
  obtain ⟨owner, describe, caught⟩ := track
  obtain ⟨v, top⟩ := Machine.exists_back? empty
  have stack := m.stack_unwind f.base
  have size : (m.unwind f.base).stack.size = min f.base (m.stack.size - 1) := by
    simp [stack]
  have same {i : Nat} (lt : i < min f.base (m.stack.size - 1)) :
      (m.unwind f.base).stack[i]? = m.stack[i]? := by
    rw [stack, Array.take_eq_extract, Array.getElem?_extract, Array.size_pop, if_pos (by omega),
      Nat.zero_add, Array.getElem?_pop, if_pos (by omega)]
  -- With the result or without, the captured variables have been closed.
  have closing {m' : Machine} (closed : closed (min f.base (m.stack.size - 1)))
      (heap : m'.heap = (m.unwind f.base).heap)
      (same : ∀ i < min f.base (m.stack.size - 1), m'.stack[i]? = m.stack[i]?) :
      (vars.refill (min f.base (m.stack.size - 1)) m'.stack).Track m' := by
    refine .closeFrom intact.popResult f.base describe caught heap (fun u j found => ?_) same
    rcases closed j (Variables.mem_capturedSlots describe caught found) with lt | ⟨above, below⟩
    · exact .inl ⟨by omega, lt⟩
    · refine .inr ⟨above, by omega, ?_⟩
      rw [Array.getElem?_pop, if_pos (by omega)]
  have halted : closed (min m.stack.size (m.unwind f.base).stack.size) →
      (vars.refill (min m.stack.size (m.unwind f.base).stack.size)
        (m.unwind f.base).stack).Track (m.unwind f.base) := by
    have eq : min m.stack.size (m.unwind f.base).stack.size = min f.base (m.stack.size - 1) := by
      omega
    rw [eq]
    exact fun closed => closing closed rfl fun i lt => same lt
  rw [Leaves, Machine.returnValue_eq head top]
  by_cases last : (m.unwind f.base).frames.isEmpty
  · rw [if_pos last]
    exact halted
  · rw [if_neg last]
    refine Leaves.push (fun closed => closing closed rfl fun i lt => ?_) halted
    change ((m.unwind f.base).stack.push v)[i]? = m.stack[i]?
    rw [Array.getElem?_push_lt (by omega), ← same lt, Array.getElem?_eq_getElem]

/-! ## Capturing variables -/

/-- What holds after a capture has been resolved to an object: it stands for the variable that it
should, the other objects stand for captured variables, and closures on the stack are as they
were. -/
structure Resolved (vars : Variables) (m : Machine) (x : Nat) (u : Handle) (m' : Machine) :
    Prop where
  intact : m'.Intact .any
  stack : m'.stack = m.stack
  frames : m'.frames = m.frames
  closures : ∀ h us, .object h ∈ m.stack → m.heap.captured? h = some us →
    m'.heap.captured? h = some us
  track : ∃ owner, vars.Describe owner m'.heap m'.stack ∧ owner u = x ∧
    (∃ state, m'.heap.upvalue? u = some state) ∧
    ∀ k state, k ≠ u → m'.heap.upvalue? k = some state → vars.IsCaptured (owner k)

theorem captureSlot_leaves (intact : m.Intact .any) (track : vars.Track m) {slot x : Nat}
    (at_ : vars.slots[slot]? = some x) :
    (Exec.captureSlot slot).Leaves m (Resolved vars m x) fun _ => False := by
  obtain ⟨owner, describe, caught⟩ := track
  refine .get_bind ?_
  split
  -- The object of the slot is listed, so it stands for the variable there.
  next u listed =>
    have found := intact.listed _ (Machine.mem_of_openUpvalue? listed)
    have same := (describe.opened u slot found).symm.trans at_
    exact ⟨intact, rfl, rfl, fun _ _ _ found => found, owner, describe, Option.some.inj same,
      ⟨_, found⟩, fun k state _ found => caught k state found⟩
  next new =>
    have intact' := intact.capture new
    have allocated := allocated_allocate intact.heap.clean (.upvalue (.opened slot)) (m.roots ++ [])
    have unlisted (k : Handle) : m.heap.upvalue? k ≠ some (.opened slot) := fun open' =>
      Machine.slot_ne_of_openUpvalue? new _ (intact.complete k slot open') rfl
    refine .bind (.bind (⟨intact', rfl, rfl, fun h us mem found => ?_, Function.update owner _ x,
      describe.allocated intact.heap allocated at_ unlisted, Function.update_self ..,
      ⟨.opened slot, ?_⟩, fun k state ne found => ?_⟩ : Resolved vars m x _ _))
    -- The stack keeps its closures alive.
    · obtain ⟨f, reserved, closure⟩ := get?_of_captured? found
      have kept := allocated.get?_kept (.root (List.mem_append_left _ (List.mem_append_left _
        (Machine.mem_roots_stack mem rfl))) (contains_of_get? closure))
      exact captured?_eq_some_iff.mpr ⟨f, reserved, kept.trans closure⟩
    · exact upvalue?_eq_some_iff.mpr allocated.get?
    · rw [Function.update_of_ne ne]
      exact caught k state (upvalue?_eq_some_iff.mpr
        (allocated.get?_old ne (get?_of_upvalue? found)))

theorem resolve_leaves {ip : Nat} (intact : m.Intact .any) (track : vars.Track m)
    (head : m.frames.head? = some { f with ip }) {capture : Capture}
    (inside : vars.resolve? f capture = none → capture.isLocal = false) :
    (Exec.resolve capture).Leaves m
      (fun u m' => ∃ x, vars.resolve? f capture = some x ∧ Resolved vars m x u m')
      fun m' => vars.resolve? f capture = none ∧ m' = m := by
  refine .ite (fun here => ?_) fun there => ?_
  · obtain ⟨x, at_⟩ : ∃ x, vars.resolve? f capture = some x := by
      cases eq : vars.resolve? f capture with
      | none => rw [inside eq] at here; cases here
      | some x => exact ⟨x, rfl⟩
    have slot : vars.slots[f.base + capture.index]? = some x := by
      rwa [Variables.resolve?, if_pos here] at at_
    exact .bind (.of_eq (frame_eq head) ((captureSlot_leaves intact track slot).mono
      (fun u m' resolved => ⟨x, at_, resolved⟩) fun _ => False.elim))
  · obtain ⟨owner, describe, caught⟩ := track
    obtain ⟨us, captured, named, live⟩ :=
      captured_frame intact describe (List.mem_of_mem_head? head)
    have resolve : vars.resolve? f capture = us[capture.index]?.map owner := by
      rw [Variables.resolve?, if_neg there]
      exact named capture.index
    rw [resolve]
    refine .bind (.of_eq (frame_eq head) (.get_bind (.orMalformed ?_ ?_)))
    · rw [captured, Option.bind_some]
      intro u at_
      exact ⟨owner u, by rw [at_, Option.map_some], intact, rfl, rfl, fun _ _ _ found => found,
        owner, describe, rfl, live u (Array.mem_of_getElem? at_),
        fun k state _ found => caught k state found⟩
    · rw [captured, Option.bind_some]
      intro outside
      exact ⟨by rw [outside, Option.map_none], rfl⟩

/-- What a closure captures makes no difference to what is captured by another one. -/
theorem resolveAll_capture (other : f.closure ≠ h) (xs : List Nat) (captures : List Capture) :
    (vars.capture h xs).resolveAll f captures = vars.resolveAll f captures := by
  have same : (vars.capture h xs).captured f.closure = vars.captured f.closure := by
    rw [Variables.captured_capture, if_neg (Ne.symm other), List.append_nil]
  induction captures with
  | nil => rfl
  | cons capture rest ih =>
    have resolve : (vars.capture h xs).resolve? f capture = vars.resolve? f capture := by
      rw [Variables.resolve?, same]
      rfl
    rw [Variables.resolveAll, Variables.resolveAll, resolve, ih]

/-- Whatever is captured, the stack stays as it is. -/
theorem captureAll_stack (h : Handle) (captures : List Capture) :
    (Exec.captureAll h captures).Leaves m (fun _ m' => m'.stack = m.stack)
      fun m' => m'.stack = m.stack := by
  have resolve (capture : Capture) (m : Machine) :
      (Exec.resolve capture).Leaves m (fun _ m' => m'.stack = m.stack)
        fun m' => m'.stack = m.stack := by
    refine .ite (fun _ => .read .frame (fun _ => .get_bind ?_) rfl) fun _ =>
      .of_reads (.upvalue _) (fun _ => rfl) rfl
    split
    · exact rfl
    · exact .bind (.allocate (.bind rfl))
  induction captures generalizing m with
  | nil => exact rfl
  | cons capture rest ih =>
    refine .bind ((resolve capture m).mono (fun u m' stack => .get_bind ?_) fun _ stack => stack)
    exact .ite (fun _ => stack) fun _ => .bind (ih.mono (fun _ _ same => same.trans stack)
      fun _ same => same.trans stack)

/-- A closure on the stack captures variables one after the other. -/
theorem captureAll_leaves {ip : Nat} {captures : List Capture} {us : Array Handle}
    (intact : m.Intact .any) (track : vars.Track m)
    (head : m.frames.head? = some { f with ip }) (other : f.closure ≠ h)
    (mem : .object h ∈ m.stack) (closure : m.heap.captured? h = some us)
    (inside : captures[(vars.resolveAll f captures).length]?.all (!·.isLocal)) :
    (Exec.captureAll h captures).Leaves m
      (fun _ m' => m'.stack = m.stack ∧ (vars.capture h (vars.resolveAll f captures)).Track m')
      fun m' => m'.stack = m.stack ∧ (vars.capture h (vars.resolveAll f captures)).Track m' := by
  induction captures generalizing m vars us with
  | nil => exact ⟨rfl, by rwa [Variables.resolveAll, Variables.capture_nil]⟩
  | cons capture rest ih =>
    rw [Variables.resolveAll] at inside ⊢
    refine .bind ((resolve_leaves intact track head fun none => ?_).mono (fun u m' => ?_) ?_)
    · simpa [none] using inside
    · rintro ⟨x, resolve, intact', stack, frames, closures, owner, describe, rfl, ⟨state, found⟩,
        caught⟩
      rw [resolve] at inside ⊢
      have closure := closures h us mem closure
      obtain ⟨function, reserved, object⟩ := get?_of_captured? closure
      refine .get_bind (.ite (fun gone => ?_) fun _ => .bind ?_)
      -- The closure is still there.
      · simp [contains_of_get? object] at gone
      · have kind := kind?_of_get? (get?_of_upvalue? found)
        have track : (vars.capture h [owner u]).Track
            { m' with heap := m'.heap.pushCaptured h u } := by
          refine ⟨owner, describe.pushCaptured found closure, fun k state' after => ?_⟩
          have before := (upvalue?_pushCaptured closure u k).symm.trans after
          rw [Variables.isCaptured_capture]
          by_cases eq : k = u
          · exact .inr (by rw [eq, List.mem_singleton])
          · exact .inl (caught k state' eq before)
        have later : (vars.capture h [owner u]).resolveAll f rest = vars.resolveAll f rest :=
          resolveAll_capture other [owner u] rest
        have both : (vars.capture h [owner u]).capture h (vars.resolveAll f rest) =
            vars.capture h (owner u :: vars.resolveAll f rest) := Variables.capture_capture ..
        have goal := ih (intact'.pushCaptured object kind) track (frames ▸ head) (stack ▸ mem)
          ((captured?_pushCaptured closure u h).trans (if_pos rfl)) (later.symm ▸ inside)
        rw [later, both] at goal
        exact goal.mono (fun _ _ ⟨same, track⟩ => ⟨same.trans stack, track⟩)
          fun _ ⟨same, track⟩ => ⟨same.trans stack, track⟩
    · rintro m' ⟨resolve, rfl⟩
      rw [resolve, Variables.capture_nil]
      exact ⟨rfl, track⟩

/-- What a closure instruction does to a machine: it stops before it has pushed a closure, or the
closure captures its variables, as far as they are there. -/
def Closes (vars : Variables) (m : Machine) (f : Frame) (index : Nat) (m' : Machine) : Prop :=
  m.Shares m' m.stack.size ∧ m'.stack.size = m.stack.size ∨
  ∃ h captures, m.pushed? m' index = some (h, captures) ∧ m.stack.size < m'.stack.size ∧
    let vars := vars.refill m.stack.size m'.stack
    (captures[(vars.resolveAll f captures).length]?.all (!·.isLocal) →
      (vars.capture h (vars.resolveAll f captures)).Track m')

/-- The second half of a closure instruction, in a machine that has read what to capture. -/
theorem pushClosure_leaves {m₂ : Machine} {ip count index : Nat} {g : Handle}
    {captures : List Capture} (regular : m.Regular) (intact : m₂.Intact .any)
    (track : vars.Track m) (heap : m₂.heap = m.heap) (stack : m₂.stack = m.stack)
    (head : m₂.frames.head? = some { f with ip }) (live : m.heap.kind? g = some .function)
    (next : m.nextCaptures? index = some captures) :
    (do
      let closure ← Exec.allocate (.closure g #[] count)
      Exec.push (.object closure)
      Exec.captureAll closure captures : Exec Unit).Leaves m₂
      (fun _ m' => Closes vars m f index m') fun m' => Closes vars m f index m' := by
  let made := m₂.allocate (.closure g #[] count) []
  have allocated : m₂.heap.Allocated (.closure g #[] count) (m₂.roots ++ []) made.1 made.2.heap :=
    allocated_allocate intact.heap.clean _ _
  -- The closure of the frame is older.
  have other : f.closure ≠ made.1 := by
    have kind := intact.closures _ (List.mem_of_mem_head? head)
    exact allocated.ne_of_lt (lt_size_of_contains (contains_of_kind? kind))
  have intact₃ : made.2.Intact .any := intact.allocate [] nofun nofun
    ⟨heap ▸ live, fun u mem => absurd mem (Array.not_mem_empty u)⟩
  have shares : m.Shares made.2 m.stack.size := by
    have calm : m.heap.Calm m.config made.2.heap :=
      heap ▸ .allocate (heap ▸ regular.heap) _ nofun nofun fun _ _ _ eq => by cases eq; rfl
    exact ((Machine.Shares.refl regular).withHeap calm).congr rfl stack
  refine .bind (.allocate (.bind (.push ?_ (.inl ⟨shares, congrArg Array.size stack⟩))))
  let m₄ : Machine := { made.2 with stack := made.2.stack.push (.object made.1) }
  have pushed {m' : Machine} (same : m'.stack = m₄.stack) :
      m.pushed? m' index = some (made.1, captures) ∧ m.stack.size < m'.stack.size := by
    have top : m'.stack[m.stack.size]? = some (.object made.1) := by
      rw [same, ← stack]
      exact Array.getElem?_push_size
    refine ⟨?_, (Array.getElem?_eq_some_iff.mp top).1⟩
    simp only [Machine.pushed?, top, next, Option.bind_eq_bind, Option.bind_some]
    rfl
  by_cases inside :
      captures[((vars.refill m.stack.size m₄.stack).resolveAll f captures).length]?.all (!·.isLocal)
  · have intact₄ : m₄.Intact .any := intact₃.withStack fun _ _ _ _ => trivial
    have track₄ : (vars.refill m.stack.size m₄.stack).Track m₄ :=
      track.shareAll (shares.push _)
    have closure : m₄.heap.captured? made.1 = some #[] :=
      captured?_eq_some_iff.mpr ⟨g, count, allocated.get?⟩
    refine (captureAll_leaves intact₄ track₄ head other Array.mem_push_self closure inside).mono
      (fun _ m' ⟨stack, track⟩ => ?_) fun m' ⟨stack, track⟩ => ?_
    all_goals
      obtain ⟨pushed, lt⟩ := pushed stack
      exact .inr ⟨_, _, pushed, lt, fun _ => stack ▸ track⟩
  · refine (captureAll_stack _ captures).mono (fun _ m' stack => ?_) fun m' stack => ?_
    all_goals
      obtain ⟨pushed, lt⟩ := pushed stack
      exact .inr ⟨_, _, pushed, lt, fun inside' => absurd (stack ▸ inside') inside⟩

theorem makeClosure_leaves (regular : m.Regular) (intact : m.Intact .any) (track : vars.Track m)
    (head : m.frames.head? = some f) (events : List ExecutionEvent) (index : Nat) :
    (Exec.makeClosure index).Leaves (m.fetched events)
      (fun _ m' => Closes vars m f index m') fun m' => Closes vars m f index m' := by
  obtain ⟨function, found, -⟩ :=
    function?_of_kind? (intact.functions f (List.mem_of_mem_head? head))
  have head' := head?_fetched head events
  have shares := Machine.Shares.refl regular
  refine .bind (.bind (.of_eq (function_eq head' found) (.orMalformed (fun v at_ => ?_)
    fun _ => .inl ⟨shares.congr rfl rfl, rfl⟩)))
  refine .get_bind (.bind (.orMalformed ?_ fun _ => .inl ⟨shares.congr rfl rfl, rfl⟩))
  rintro ⟨g, callee⟩ constant
  obtain ⟨g', handle, constant⟩ := Option.bind_eq_some_iff.mp constant
  obtain ⟨callee', live, constant⟩ := Option.bind_eq_some_iff.mp constant
  obtain ⟨rfl, rfl⟩ : g' = g ∧ callee' = callee := by simpa using constant
  have live : m.heap.function? g' = some callee' := live
  -- The pointer moves past the captures.
  refine .bind (.bind (.of_eq (function_eq head' found) (.bind (.of_eq (frame_eq head') (.bind
    (.setIp (.orMalformed (fun captures read => ?_) fun _ => .inl ⟨shares.congr rfl rfl, rfl⟩)))))))
  have next : m.nextCaptures? index = some captures := by
    simp only [Machine.nextCaptures?, head, found, at_, handle, live, Option.bind_eq_bind,
      Option.bind_some]
    exact read
  exact pushClosure_leaves regular (((intact.withIp _).withEvents _).withIp _) track rfl rfl
    (head?_withIp head' _) (kind?_of_get? (get?_of_function? live)) next

end Exec

/-! ## Steps -/

namespace Variables

variable {vars : Variables} {m m' : Machine} {f : Frame} {op : Opcode} {operands : List Nat}
  {kept slot : Nat}

/-- If the next instruction treats captured slots as it should, then its variables describe the
other machine. -/
def Carries (vars : Variables) (m m' : Machine) (kept : Nat) : Prop :=
  vars.Obeys m m' kept → (vars.after m m' kept).Track m'

/-- An instruction that gets through leaves some slots; if it stops, it has left all that are
there. -/
def Carry (vars : Variables) (m : Machine) (x : Exec Unit) (m₁ : Machine) : Prop :=
  x.Leaves m₁ (fun _ m' => vars.Carries m m' (m.staying m'))
    fun m' => vars.Carries m m' (min m.stack.size m'.stack.size)

/-- An instruction that stops at once leaves variables alone. -/
theorem Track.carries_of_eq (track : vars.Track m) (heap : m'.heap = m.heap)
    (stack : m'.stack = m.stack)
    (after : vars.after m m' m.stack.size = vars.refill m.stack.size m'.stack) :
    vars.Carries m m' (min m.stack.size m'.stack.size) := by
  intro _
  have size : m'.stack.size = m.stack.size := congrArg Array.size stack
  rw [size, Nat.min_self, after, track.refill_eq size]
  exact track.congr heap stack

theorem Carry.plain (regular : m.Regular) (track : vars.Track m)
    (next : m.next? = some ⟨op, operands⟩) (head : m.frames.head? = some f) (plain : op.isPlain)
    (events : List ExecutionEvent) (a b : Nat) :
    vars.Carry m (Exec.perform op a b) (m.fetched events) := by
  have after (m' : Machine) (kept : Nat) : vars.after m m' kept = vars.refill kept m'.stack := by
    simp only [Variables.after, next, head]
    cases op <;> first | rfl | cases plain
  have closes (j : Nat) : m.closes j = false := by
    simp only [Machine.closes, next, head]
    cases op <;> first | rfl | cases plain
  have staying (m' : Machine) : m.staying m' = m.stack.size - op.taken := by
    simp only [Machine.staying, next, head]
    cases op <;> first | rfl | cases plain
  have carries {m' : Machine} {kept : Nat} (shares : m.Shares m' kept) :
      vars.Carries m m' kept := by
    intro obeys
    rw [after]
    exact track.share shares fun j mem => (obeys.closed j mem).resolve_right (by simp [closes j])
  have shares : m.Shares (m.fetched events) m.stack.size :=
    (Machine.Shares.refl regular).congr rfl rfl
  refine (Exec.Takes.perform plain a b _ rfl shares).mono (fun _ m' shares => ?_)
    fun m' shares => ?_
  · exact carries (staying m' ▸ shares)
  · rw [Nat.min_eq_right shares.before]
    exact carries shares

/-- A storing instruction leaves all slots where they are. -/
theorem Carry.stores {x : Exec Unit} {m₁ : Machine} {y? : Option Nat} {v? : Option Value}
    (track : vars.Track m)
    (stores : x.Leaves m₁ (fun _ m' => (vars.store y? v?).Track m')
      fun m' => (vars.store y? v?).Track m')
    (staying : ∀ m', m.staying m' = m.stack.size)
    (after : ∀ m', vars.refill m.stack.size m'.stack = vars →
      vars.after m m' m.stack.size = vars.store y? v?) : vars.Carry m x m₁ := by
  have size {m' : Machine} (stored : (vars.store y? v?).Track m') :
      m'.stack.size = m.stack.size := by
    rw [← stored.size_slots, slots_store, track.size_slots]
  have carries {m' : Machine} (stored : (vars.store y? v?).Track m') :
      vars.Carries m m' m.stack.size := by
    intro _
    rwa [after m' (track.refill_eq (size stored))]
  refine Exec.Leaves.mono stores (fun _ m' stored => ?_) fun m' stored => ?_
  · rw [staying]
    exact carries stored
  · rw [size stored, Nat.min_self]
    exact carries stored

theorem Carry.setLocal (track : vars.Track m) (next : m.next? = some ⟨.setLocal, operands⟩)
    (head : m.frames.head? = some f) (events : List ExecutionEvent) (b : Nat) :
    vars.Carry m (Exec.perform .setLocal (operands.getD 0 0) b) (m.fetched events) := by
  have stores := (Exec.setLocal_leaves (Exec.head?_fetched head events) (operands.getD 0 0)).mono
    (fun _ _ ⟨heap, stack⟩ => track.storeAt heap m.stack.back? stack)
    fun _ ⟨heap, stack⟩ => track.storeAt heap m.stack.back? stack
  refine .stores track stores (fun m' => ?_) fun m' refilled => ?_
  · simp only [Machine.staying, next, head]
    rfl
  · simp only [Variables.after, next, head, refilled]

theorem Carry.setUpvalue (intact : m.Intact .any) (track : vars.Track m)
    (next : m.next? = some ⟨.setUpvalue, operands⟩) (head : m.frames.head? = some f)
    (events : List ExecutionEvent) (b : Nat) :
    vars.Carry m (Exec.perform .setUpvalue (operands.getD 0 0) b) (m.fetched events) := by
  have track' : vars.Track (m.fetched events) := track.congr rfl rfl
  have stores := Exec.setUpvalue_leaves ((intact.withIp _).withEvents _) track'
    (Exec.head?_fetched head events) (operands.getD 0 0)
  refine .stores track stores (fun m' => ?_) fun m' refilled => ?_
  · simp only [Machine.staying, next, head]
    rfl
  · simp only [Variables.after, next, head, refilled]
    rfl

/-- A call overwrites the slot of its callee. -/
theorem Carry.calls {x : Exec Unit} {m₁ : Machine} (track : vars.Track m)
    (calls : Exec.Calls m slot x m₁) (staying : ∀ m', m.staying m' = m'.stack.size)
    (after : ∀ m' kept, vars.after m m' kept =
      let vars := vars.refill kept m'.stack
      vars.store vars.slots[slot]? m'.stack[slot]?)
    (closes : ∀ j, m.closes j = false) : vars.Carry m x m₁ := by
  have carries {m' : Machine} (overwrites : m.Overwrites m' slot) :
      vars.Carries m m' m'.stack.size := by
    intro obeys
    rw [after]
    exact track.overwrite overwrites fun j mem =>
      (obeys.closed j mem).resolve_right (by simp [closes j])
  refine Exec.Leaves.mono calls (fun _ m' overwrites => ?_) fun m' overwrites => ?_
  · rw [staying]
    exact carries overwrites
  · rw [Nat.min_eq_right overwrites.le]
    exact carries overwrites

theorem Carry.call (regular : m.Regular) (track : vars.Track m)
    (next : m.next? = some ⟨.call, operands⟩) (head : m.frames.head? = some f)
    (events : List ExecutionEvent) (b : Nat) :
    vars.Carry m (Exec.perform .call (operands.getD 0 0) b) (m.fetched events) := by
  have shares : m.Shares (m.fetched events) m.stack.size :=
    (Machine.Shares.refl regular).congr rfl rfl
  have calls : Exec.Calls m (m.callee (operands.getD 0 0))
      (Exec.perform .call (operands.getD 0 0) b) (m.fetched events) :=
    .read (.peek _) (fun v => Exec.Calls.callValue shares.overwrites rfl v) shares.overwrites
  refine .calls track calls (fun m' => ?_) (fun m' kept => ?_) fun j => ?_
  · simp only [Machine.staying, next, head]
  · simp only [Variables.after, next, head]
  · simp only [Machine.closes, next, head]

theorem Carry.invoke (regular : m.Regular) (track : vars.Track m)
    (next : m.next? = some ⟨.invoke, operands⟩) (head : m.frames.head? = some f)
    (events : List ExecutionEvent) (a : Nat) :
    vars.Carry m (Exec.perform .invoke a (operands.getD 1 0)) (m.fetched events) := by
  have shares : m.Shares (m.fetched events) m.stack.size :=
    (Machine.Shares.refl regular).congr rfl rfl
  have calls : Exec.Calls m (m.callee (operands.getD 1 0))
      (Exec.perform .invoke a (operands.getD 1 0)) (m.fetched events) :=
    .read (.name _) (fun key => Exec.Calls.invoke shares.overwrites rfl key) shares.overwrites
  refine .calls track calls (fun m' => ?_) (fun m' kept => ?_) fun j => ?_
  · simp only [Machine.staying, next, head]
  · simp only [Variables.after, next, head]
  · simp only [Machine.closes, next, head]

theorem Carry.closeUpvalue (intact : m.Intact .any) (track : vars.Track m)
    (next : m.next? = some ⟨.closeUpvalue, operands⟩) (head : m.frames.head? = some f)
    (events : List ExecutionEvent) (a b : Nat) :
    vars.Carry m (Exec.perform .closeUpvalue a b) (m.fetched events) := by
  have after (m' : Machine) (kept : Nat) : vars.after m m' kept = vars.refill kept m'.stack := by
    simp only [Variables.after, next, head]
  have track' : vars.Track (m.fetched events) := track.congr rfl rfl
  refine (Exec.closeTop_leaves ((intact.withIp _).withEvents _) track').mono
    (fun _ m' closed _ => ?_) fun m' ⟨heap, stack⟩ => track.carries_of_eq heap stack (after m' _)
  have staying : m.staying m' = m.stack.size - 1 := by
    simp only [Machine.staying, next, head]
    rfl
  rw [after, staying]
  exact closed

theorem Carry.ret (intact : m.Intact .any) (track : vars.Track m)
    (next : m.next? = some ⟨.ret, operands⟩) (head : m.frames.head? = some f)
    (events : List ExecutionEvent) (a b : Nat) :
    vars.Carry m (Exec.perform .ret a b) (m.fetched events) := by
  have after (m' : Machine) (kept : Nat) : vars.after m m' kept = vars.refill kept m'.stack := by
    simp only [Variables.after, next, head]
  have closed {m' : Machine} {kept : Nat} (obeys : vars.Obeys m m' kept) :
      ∀ j ∈ vars.capturedSlots, j < kept ∨ f.base ≤ j ∧ j + 1 < m.stack.size := by
    intro j mem
    simpa only [Machine.closes, next, head, decide_eq_true_eq] using obeys.closed j mem
  have track' : vars.Track (m.fetched events) := track.congr rfl rfl
  refine (Exec.returnValue_leaves ((intact.withIp _).withEvents _) track'
    (Exec.head?_fetched head events)).mono (fun _ m' closing obeys => ?_) fun m' closing obeys => ?_
  · have staying : m.staying m' = min f.base (m.stack.size - 1) := by
      simp only [Machine.staying, next, head]
    rw [staying] at obeys
    rw [after, staying]
    exact closing (closed obeys)
  · rw [after]
    exact closing (closed obeys)

theorem Carry.closure (regular : m.Regular) (intact : m.Intact .any) (track : vars.Track m)
    (next : m.next? = some ⟨.closure, operands⟩) (head : m.frames.head? = some f)
    (events : List ExecutionEvent) (b : Nat) :
    vars.Carry m (Exec.perform .closure (operands.getD 0 0) b) (m.fetched events) := by
  have carries {m' : Machine} (closes : Exec.Closes vars m f (operands.getD 0 0) m') :
      vars.Carries m m' m.stack.size := by
    intro obeys
    have inside := obeys.inside
    simp only [Variables.inside, next, head] at inside
    simp only [Variables.after, next, head]
    rcases closes with ⟨shares, size⟩ | ⟨h, captures, pushed, -, captured⟩
    · have pushed : m.pushed? m' (operands.getD 0 0) = none := by
        rw [Machine.pushed?, Array.getElem?_eq_none size.le]
        rfl
      rw [pushed]
      exact track.shareAll shares
    · rw [pushed] at inside ⊢
      exact captured inside
  have least {m' : Machine} (closes : Exec.Closes vars m f (operands.getD 0 0) m') :
      min m.stack.size m'.stack.size = m.stack.size := by
    rcases closes with ⟨-, size⟩ | ⟨_, _, -, lt, -⟩ <;> omega
  refine (Exec.makeClosure_leaves regular intact track head events _).mono
    (fun _ m' closes => ?_) fun m' closes => ?_
  · have staying : m.staying m' = m.stack.size := by
      simp only [Machine.staying, next, head]
      rfl
    rw [staying]
    exact carries closes
  · rw [least closes]
    exact carries closes

theorem Carry.perform (regular : m.Regular) (intact : m.Intact .any) (track : vars.Track m)
    (next : m.next? = some ⟨op, operands⟩) (head : m.frames.head? = some f)
    (events : List ExecutionEvent) :
    vars.Carry m (Exec.perform op (operands.getD 0 0) (operands.getD 1 0)) (m.fetched events) := by
  cases op with
  | setLocal => exact setLocal track next head events _
  | setUpvalue => exact setUpvalue intact track next head events _
  | call => exact call regular track next head events _
  | invoke => exact invoke regular track next head events _
  | closure => exact closure regular intact track next head events _
  | closeUpvalue => exact closeUpvalue intact track next head events _ _
  | ret => exact ret intact track next head events _ _
  | _ => exact plain regular track next head rfl events _ _

/-- Without an instruction to carry out, a step touches neither the heap nor the stack. -/
theorem stuck (intact : m.Intact .any) (next : m.next? = none) :
    Exec.step.Leaves m (fun _ _ => False) fun m' => m'.heap = m.heap ∧ m'.stack = m.stack := by
  by_cases idle : m.frames = []
  · rw [Exec.Leaves, Machine.step_of_frames_eq_nil idle]
    exact ⟨rfl, rfl⟩
  · obtain ⟨_, _, eq⟩ := intact.step_of_next?_eq_none idle next
    rw [Exec.Leaves, eq]
    exact ⟨rfl, rfl⟩

/-- A step does what its instruction should do with variables, if it treats captured slots as it
should. -/
theorem Carry.step (regular : m.Regular) (intact : m.Intact .any) (track : vars.Track m) :
    vars.Carry m Exec.step m := by
  cases next : m.next? with
  | none =>
    refine (stuck intact next).mono (fun _ _ => False.elim)
      fun m' ⟨heap, stack⟩ => track.carries_of_eq heap stack ?_
    simp only [Variables.after, next]
  | some instruction =>
    obtain ⟨events, eq⟩ := Exec.step_eq_nextIp none next
    obtain ⟨f, head, -⟩ := Option.bind_eq_some_iff.mp next
    rw [Carry, Exec.Leaves, eq]
    exact Carry.perform regular intact track next head events

end Variables

end ScriptMachine
