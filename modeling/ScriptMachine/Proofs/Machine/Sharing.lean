/-
# Captured variables are shared

In the course of an execution, the host and the machine's own steps take turns.
Variables are kept along the way as they should be: a run that is entered puts
its closure into a new variable, each step does what its instruction does with
variables, and after an error no variable lives on the stack any more.

Captured slots have to be treated as they should. Each slot that a closure
captures is on the stack by then, and a captured slot leaves the stack by an
instruction that closes it, by a return with a result from above it, or when
the machine is brought to rest after an error that has left it on the stack.

The variables then describe every machine that such an execution leads to. So
an instruction that reads a captured variable gets the value that was stored
most recently, no matter through which closure or slot, how many frames have
returned since, what became of the slot, and how often unused objects were
freed. What takes the slot of a variable later is another variable.

## Main definitions

* `Machine.Moves` — one move of the host or of the machine, with what it does to variables
* `Machine.Executes` — any number of moves
* `Machine.Tame` — the next steps treat captured slots as they should

## Main results

* `Executes.track` — the variables describe the machine
* `Executes.runChunk` — running a chunk is an execution
* `Moves.value` — a variable keeps its value until an instruction stores into it
* `Executes.captured_variables_shared` — whoever reads a variable gets what was stored last
-/

import ScriptMachine.Proofs.Machine.Tracking

namespace ScriptMachine

open Heap

/-- What becomes of variables when a run has ended: after an error none lives on the stack. -/
def Variables.conclude (vars : Variables) : Stop → Variables
  | .failed _ => vars.refill 0 #[]
  | _ => vars

namespace Machine

/-- One move of the host or of the machine, and what it does to variables. -/
inductive Moves : Machine × Variables → Machine × Variables → Prop
  | defineNative {m : Machine} {vars : Variables} (native : Native) :
    Moves (m, vars) (m.defineNative native, vars)
  | intern {m : Machine} {vars : Variables} (text : String) (extra : List Handle) :
    Moves (m, vars) ((m.intern text extra).2, vars)
  | allocate {m : Machine} {vars : Variables} (f : Function) (extra : List Handle) :
    Moves (m, vars) ((m.allocate (.function f) extra).2, vars)
  | collect {m : Machine} {vars : Variables} : Moves (m, vars) (m.collect, vars)
  | tick {m : Machine} {vars : Variables} (uptime : Number) :
    Moves (m, vars) ({ m with uptime }, vars)
  /-- The closure that is entered is on top of the stack. -/
  | enter {m m' : Machine} {vars : Variables} (h : Handle) (ran : enter h none m = .ok ⟨⟩ m') :
    Moves (m, vars) (m', vars.refill m.stack.size m'.stack)
  | refuse {m m' : Machine} {vars : Variables} {stop : Stop} (h : Handle)
    (ran : enter h none m = .error stop m') :
    Moves (m, vars)
      ((m'.conclude stop).2, (vars.refill m.stack.size m'.stack).conclude stop)
  | step {m m' : Machine} {vars : Variables} (ran : Exec.step none m = .ok ⟨⟩ m')
    (obeys : vars.Obeys m m' (m.staying m')) :
    Moves (m, vars) (m', vars.after m m' (m.staying m'))
  /-- The run ends. An instruction that stops has left those slots that are still there. -/
  | stop {m m' : Machine} {vars : Variables} {stop : Stop}
    (ran : Exec.step none m = .error stop m')
    (obeys : vars.Obeys m m' (min m.stack.size m'.stack.size)) :
    Moves (m, vars) ((m'.conclude stop).2,
      (vars.after m m' (min m.stack.size m'.stack.size)).conclude stop)

/-- Any number of moves. -/
def Executes : Machine × Variables → Machine × Variables → Prop := Relation.ReflTransGen Moves

variable {m m' : Machine} {vars vars' : Variables} {config : Config} {sink : Sink}
  {uptime : Number} {s s' : Machine × Variables}

theorem Moves.reachable (moves : Moves s s') (reachable : s.1.Reachable .any) :
    s'.1.Reachable .any := by
  cases moves with
  | defineNative native => exact reachable.defineNative native
  | intern text extra => exact reachable.intern text extra
  | allocate f extra => exact reachable.allocate f extra fun _ _ => trivial
  | collect => exact reachable.collect
  | tick uptime => exact reachable.tick uptime
  | enter h ran => exact reachable.enter h ran
  | refuse h ran => exact reachable.refuse h ran
  | step ran _ => exact reachable.step (honest_any _) ran
  | stop ran _ => exact reachable.stop (honest_any _) ran

/-! ## Tracking variables -/

theorem calm_defineNative (regular : m.Regular) (native : Native) :
    m.heap.Calm m.config (m.defineNative native).heap := by
  have interned : m.heap.Calm m.config (m.intern native.name []).2.heap :=
    .intern regular.heap _ _
  exact interned.trans (.allocate interned.evolves _ nofun nofun nofun)

/-- Entering a function leaves what is on the stack. -/
theorem enter_leaves (regular : m.Regular) (h : Handle) :
    (Machine.enter h).Leaves m (fun _ m' => m.Shares m' m.stack.size)
      fun m' => m.Shares m' m.stack.size := by
  have shares := Shares.refl regular
  refine .get_bind (.bind (.discard (.of_reads (.orFail _ _) (fun _ => ?_) shares)))
  -- The function is on the stack only while the closure is allocated.
  let pushed : Machine := { m with stack := m.stack.push (.object h) }
  let made := (pushed.allocate (.closure h #[] 0) []).2
  have calm : m.heap.Calm m.config made.heap :=
    .allocate regular.heap _ nofun nofun fun _ _ _ eq => by cases eq; rfl
  have popped : m.Shares { made with stack := made.stack.pop } m.stack.size :=
    (shares.withHeap calm).congr rfl Array.pop_push
  refine .bind (.push (.bind (.allocate (.bind (.discard (.pop (fun _ => ?_) ?_))))) shares)
  · refine .bind (.push ?_ popped)
    exact (Exec.Quiet.call _ _ _).mono
      (fun _ _ ⟨heap, stack⟩ => (popped.push _).congr heap stack)
      fun _ ⟨heap, stack⟩ => (popped.push _).congr heap stack
  · exact ((shares.push _).withHeap calm).congr rfl rfl

/-- A step that stops leaves an intact machine. -/
theorem Intact.of_stop {stop : Stop} (intact : m.Intact .any)
    (ran : Exec.step none m = .error stop m') : m'.Intact .any := by
  by_cases idle : m.frames = []
  · rw [step_of_frames_eq_nil idle] at ran
    cases ran
    exact intact
  · exact ((Exec.Ensures.step intact idle m.honest_any).of_error ran).intact

theorem record_heap (m : Machine) (event : ExecutionEvent) : (m.record event).heap = m.heap := by
  unfold record
  split <;> rfl

theorem record_stack (m : Machine) (event : ExecutionEvent) : (m.record event).stack = m.stack := by
  unfold record
  split <;> rfl

/-- An error closes all captured variables. -/
theorem Intact.track_conclude (intact : m.Intact .any) (track : vars.Track m) (stop : Stop) :
    (vars.conclude stop).Track (m.conclude stop).2 := by
  cases stop with
  | failed kind =>
    obtain ⟨entries, eq⟩ := intact.toSound.exists_backtrace
    simp only [Machine.conclude, eq]
    obtain ⟨owner, describe, caught⟩ : vars.Track (m.record (.failure ⟨kind, entries⟩)) :=
      track.congr (record_heap ..) (record_stack ..)
    let rest := (m.record (.failure ⟨kind, entries⟩)).reset
    have heap : rest.heap = ((m.record (.failure ⟨kind, entries⟩)).closeFrom 0).heap := rfl
    have closed : (vars.refill 0 rest.stack).Track rest :=
      .closeFrom (intact.record _) 0 describe caught heap
        (fun u j _ => .inr ⟨Nat.zero_le j, Nat.zero_le j, rfl⟩)
        fun j lt => absurd lt (Nat.not_lt_zero j)
    exact closed
  | finished | broken | paused => exact track

theorem Moves.track (moves : Moves s s') (reachable : s.1.Reachable .any)
    (track : s.2.Track s.1) : s'.2.Track s'.1 := by
  have regular := reachable.regular
  have intact := reachable.intact
  cases moves with
  | defineNative native => exact track.calm (calm_defineNative regular native) rfl
  | intern text extra => exact track.calm (.intern regular.heap text _) rfl
  | allocate f extra => exact track.calm (.allocate regular.heap _ nofun nofun nofun) rfl
  | collect => exact track.calm (.collect regular.heap _) rfl
  | tick uptime => exact track.congr rfl rfl
  | enter h ran =>
    exact track.shareAll ((enter_leaves regular h).of_ok ran)
  | refuse h ran =>
    have halted := ((Exec.Ensures.enter intact).of_error ran).intact
    exact halted.track_conclude (track.shareAll ((enter_leaves regular h).of_error ran)) _
  | step ran obeys => exact (Variables.Carry.step regular intact track).of_ok ran obeys
  | stop ran obeys =>
    have carried := (Variables.Carry.step regular intact track).of_error ran obeys
    exact (intact.of_stop ran).track_conclude carried _

theorem track_start (config : Config) (sink : Sink) (uptime : Number) :
    Variables.blank.Track (start config sink uptime) := by
  have regular := regular_blank config sink uptime
  let bare : Machine := { blank config sink uptime with heap := .empty config }
  -- There are neither closures nor captured variables in an empty heap.
  have none (h : Handle) : bare.heap.get? h = none := by simp [bare, get?]
  have track : Variables.blank.Track bare := by
    refine ⟨fun _ => 0, ⟨rfl, List.nodup_nil, fun _ mem => absurd mem List.not_mem_nil, fun x => ?_,
      fun _ _ => rfl, fun _ _ at_ => (by cases at_), fun h us found => ?_, fun u j found => ?_,
      fun u v found => ?_, fun u state found => ?_, fun u u' state state' found => ?_⟩,
      fun u state found => ?_⟩
    · rintro ⟨c, mem, -⟩
      cases mem
    · obtain ⟨f, reserved, found⟩ := get?_of_captured? found
      rw [none] at found
      cases found
    all_goals
      have found := get?_of_upvalue? found
      rw [none] at found
      cases found
  have calm : bare.heap.Calm config (blank config sink uptime).heap := .intern .empty "init" []
  have track : Variables.blank.Track (blank config sink uptime) := track.calm calm rfl
  exact track.calm (calm_defineNative regular .clock) rfl

/-- However the host and the machine go on, the variables describe the machine. -/
theorem Executes.track (executes : Executes (start config sink uptime, .blank) s) :
    s.1.Reachable .any ∧ s.2.Track s.1 := by
  induction executes with
  | refl => exact ⟨.start config sink uptime, track_start config sink uptime⟩
  | tail _ moves ih => exact ⟨moves.reachable ih.1, moves.track ih.1 ih.2⟩

/-! ## Runs -/

/-- The next steps treat captured slots as they should, as many as given. -/
def Tame : (bound : Nat) → Machine × Variables → Prop
  | 0, _ => True
  | bound + 1, (m, vars) =>
    (∀ m', Exec.step none m = .ok ⟨⟩ m' → vars.Obeys m m' (m.staying m') ∧
      Tame bound (m', vars.after m m' (m.staying m'))) ∧
    ∀ stop m', Exec.step none m = .error stop m' → vars.Obeys m m' (min m.stack.size m'.stack.size)

/-- Steps are moves, and so is what is done about a stop. -/
theorem Executes.steps {bound : Nat} (executes : Executes s (m, vars))
    (tame : Tame bound (m, vars)) :
    (∀ m', m.steps bound = (none, m') → ∃ vars', Executes s (m', vars')) ∧
    ∀ stop m', m.steps bound = (some stop, m') →
      ∃ vars', Executes s ((m'.conclude stop).2, vars') := by
  induction bound generalizing m vars with
  | zero =>
    rw [Machine.steps]
    constructor
    · intro m' eq
      cases eq
      exact ⟨vars, executes⟩
    · intro stop m' eq
      cases eq
  | succ bound ih =>
    obtain ⟨goes, stops⟩ := tame
    rw [Machine.steps]
    cases ran : Exec.step none m with
    | ok _ m' =>
      obtain ⟨obeys, later⟩ := goes m' ran
      exact ih (executes.tail (.step ran obeys)) later
    | error stop m' =>
      constructor
      · intro m'' eq
        cases eq
      · intro stop' m'' eq
        cases eq
        exact ⟨_, executes.tail (.stop ran (stops stop m' ran))⟩

theorem Executes.runFunction {bound : Nat} {h : Handle} (executes : Executes s (m, vars))
    (tame : ∀ m', Machine.enter h none m = .ok ⟨⟩ m' →
      Tame bound (m', vars.refill m.stack.size m'.stack)) :
    ∃ vars', Executes s ((m.runFunction bound h).2, vars') := by
  unfold Machine.runFunction
  split
  next stop m' ran => exact ⟨_, executes.tail (.refuse h ran)⟩
  next m' ran =>
    have entered : Executes s (m', _) := executes.tail (.enter h ran)
    obtain ⟨unfinished, stopped⟩ := entered.steps (tame m' ran)
    split
    next m'' eq => exact unfinished m'' eq
    next stop m'' eq => exact stopped stop m'' eq

/-- Running a chunk is an execution, if all of its steps treat captured slots as they should. -/
theorem Executes.runChunk {bound : Nat} {chunk : Chunk Value} (executes : Executes s (m, vars))
    (tame : ∀ m', m.entered? chunk = some m' →
      Tame bound (m', vars.refill m.stack.size m'.stack)) :
    ∃ vars', Executes s ((m.runChunk bound chunk).2, vars') := by
  have allocated : Executes s ((m.allocate (.function (.script chunk)) []).2, vars) :=
    executes.tail (.allocate (.script chunk) [])
  exact allocated.runFunction fun m' ran => tame m' (entered?_of_enter ran)

/-! ## Reading variables -/

/-- The value that a captured variable has is that of the variable that it stands for. -/
theorem getUpvalue_leaves {f : Frame} (intact : m.Intact .any) (track : vars.Track m)
    (head : m.frames.head? = some f) (index : Nat) :
    (Exec.getUpvalue index).Leaves m
      (fun v m' => ∃ x, (vars.captured f.closure)[index]? = some x ∧ v = vars.value x ∧ m' = m)
      fun _ => (vars.captured f.closure)[index]? = none := by
  obtain ⟨owner, describe, caught⟩ := track
  obtain ⟨us, captured, named, live⟩ :=
    Exec.captured_frame intact describe (List.mem_of_mem_head? head)
  rw [named]
  refine .bind (.bind (.of_eq (Exec.frame_eq head) (.get_bind (.orMalformed ?_ ?_))))
  · rw [captured, Option.bind_some]
    intro u at_
    obtain ⟨state, found⟩ := live u (Array.mem_of_getElem? at_)
    rw [at_, Option.map_some]
    refine .get_bind (.bind (.of_eq (Exec.orBroken_eq (get?_of_upvalue? found) _) ?_))
    cases state with
    | opened slot =>
      have here := describe.slot slot _ (describe.opened u slot found)
      change (Exec.orMalformed _ m.stack[slot]?).Leaves m _ _
      rw [here]
      exact ⟨owner u, rfl, rfl, rfl⟩
    | closed v => exact ⟨owner u, rfl, (describe.closed u v found).1.symm, rfl⟩
  · rw [captured, Option.bind_some]
    intro outside
    rw [outside, Option.map_none]

theorem getLocal_leaves {f : Frame} (track : vars.Track m) (head : m.frames.head? = some f)
    (slot : Nat) :
    (Exec.getLocal slot).Leaves m
      (fun v m' => ∃ x, vars.slots[f.base + slot]? = some x ∧ v = vars.value x ∧ m' = m)
      fun _ => vars.slots[f.base + slot]? = none := by
  obtain ⟨owner, describe, caught⟩ := track
  refine .bind (.of_eq (Exec.frame_eq head) (.get_bind (.orMalformed (fun v at_ => ?_)
    fun outside => ?_)))
  · have lt := (Array.getElem?_eq_some_iff.mp at_).1
    obtain ⟨x, here⟩ : ∃ x, vars.slots[f.base + slot]? = some x :=
      ⟨_, List.getElem?_eq_getElem (describe.size ▸ lt)⟩
    exact ⟨x, here, Option.some.inj (at_.symm.trans (describe.slot _ x here)), rfl⟩
  · exact List.getElem?_eq_none (describe.size ▸ Array.getElem?_eq_none_iff.mp outside)

/-- The next step pushes the value of the variable: it does so if there is a variable and the stack
has room, and if it goes on, it has done so. -/
def Yields (m : Machine) (vars : Variables) (x? : Option Nat) : Prop :=
  (∀ x, x? = some x → m.stack.size < m.config.stackLimit →
    ∃ m', Exec.step none m = .ok ⟨⟩ m' ∧ m'.stack = m.stack.push (vars.value x)) ∧
  ∀ m', Exec.step none m = .ok ⟨⟩ m' →
    ∃ x, x? = some x ∧ m'.stack = m.stack.push (vars.value x)

/-- Reading a variable and pushing what has been read. -/
theorem yields_of_leaves {x? : Option Nat} {read : Exec Value} {events : List ExecutionEvent}
    (eq : Exec.step none m = (read >>= Exec.push) none (m.fetched events))
    (leaves : read.Leaves (m.fetched events)
      (fun v m' => ∃ x, x? = some x ∧ v = vars.value x ∧ m' = m.fetched events)
      fun _ => x? = none) : m.Yields vars x? := by
  rw [Yields, eq]
  cases ran : read none (m.fetched events) with
  | ok v m' =>
    obtain ⟨x, here, rfl, rfl⟩ := leaves.of_ok ran
    rw [Exec.bind_eq ran]
    have push : Exec.push (vars.value x) none (m.fetched events) = _ := push_eq _ _
    by_cases full : (m.fetched events).config.stackLimit ≤ (m.fetched events).stack.size
    · rw [if_pos full] at push
      refine ⟨fun y _ room => absurd full (Nat.not_le_of_lt room), fun m' ran => ?_⟩
      simp only [push] at ran
      cases ran
    · rw [if_neg full] at push
      simp only [push]
      refine ⟨fun y there _ => ⟨_, rfl, ?_⟩, fun m' ran => ⟨x, here, ?_⟩⟩
      · rw [Option.some.inj (there.symm.trans here)]
        rfl
      · cases ran
        rfl
  | error stop m' =>
    rw [Exec.bind_error ran]
    refine ⟨fun x there _ => ?_, fun m' ran => ?_⟩
    · rw [leaves.of_error ran] at there
      cases there
    · cases ran

/-! ## Slots and values -/

/-- The variable that the next instruction stores into. -/
def target? (m : Machine) (vars : Variables) : Option Nat :=
  match m.next?, m.frames.head? with
  | some ⟨op, operands⟩, some frame =>
    match op with
    | .setLocal => vars.slots[frame.base + operands.getD 0 0]?
    | .setUpvalue => (vars.captured frame.closure)[operands.getD 0 0]?
    | .call => vars.slots[m.callee (operands.getD 0 0)]?
    | .invoke => vars.slots[m.callee (operands.getD 1 0)]?
    | _ => none
  | _, _ => none

end Machine

namespace Variables

variable {vars vars' : Variables}

/-- Where a variable lives later, it lived before, or it did not exist. -/
structure Later (vars vars' : Variables) : Prop where
  grown : vars.count ≤ vars'.count
  slots : ∀ (j x : Nat), vars'.slots[j]? = some x → vars.slots[j]? = some x ∨ vars.count ≤ x

namespace Later

theorem refl (vars : Variables) : vars.Later vars := ⟨Nat.le_refl _, fun _ _ => .inl⟩

theorem trans {vars'' : Variables} (later : vars.Later vars') (later' : vars'.Later vars'') :
    vars.Later vars'' := by
  refine ⟨later.grown.trans later'.grown, fun j x found => ?_⟩
  rcases later'.slots j x found with found | new
  · exact later.slots j x found
  · exact .inr (later.grown.trans new)

theorem push (vars : Variables) (v : Value) : vars.Later (vars.push v) := by
  refine ⟨Nat.le_succ _, fun j x found => ?_⟩
  rw [Variables.push, List.getElem?_append] at found
  split at found
  · exact .inl found
  · rw [List.getElem?_singleton] at found
    split at found
    · exact .inr (Option.some.inj found).le
    · cases found

theorem refill (vars : Variables) (kept : Nat) (stack : Array Value) :
    vars.Later (vars.refill kept stack) := by
  have pushAll (vs : List Value) (vars : Variables) :
      vars.Later (vs.foldl Variables.push vars) := by
    induction vs generalizing vars with
    | nil => exact refl vars
    | cons v rest ih => exact (push vars v).trans (ih _)
  have cut : vars.Later { vars with slots := vars.slots.take kept } := by
    refine ⟨Nat.le_refl _, fun j x found => .inl ?_⟩
    rw [List.getElem?_take] at found
    split at found
    · exact found
    · cases found
  exact cut.trans (pushAll _ _)

theorem store (vars : Variables) (x? : Option Nat) (v? : Option Value) :
    vars.Later (vars.store x? v?) := by
  cases x? <;> cases v? <;> exact ⟨Nat.le_refl _, fun _ _ => .inl⟩

theorem after (vars : Variables) (m m' : Machine) (kept : Nat) :
    vars.Later (vars.after m m' kept) := by
  have refilled := refill vars kept m'.stack
  unfold Variables.after
  split
  next op operands f _ head =>
    simp only
    split
    · exact refilled.trans (store _ _ _)
    · exact refilled.trans (store _ _ _)
    · exact refilled.trans (store _ _ _)
    · exact refilled.trans (store _ _ _)
    · split
      -- What closures have captured makes no difference to slots.
      · exact refilled.trans ⟨Nat.le_refl _, fun _ _ => .inl⟩
      · exact refilled
    · exact refilled
  next => exact refilled

theorem conclude (vars : Variables) (stop : Stop) : vars.Later (vars.conclude stop) := by
  cases stop with
  | failed => exact refill vars 0 #[]
  | finished | broken | paused => exact refl vars

end Later

variable {x : Nat}

theorem value_refill (old : x < vars.count) (kept : Nat) (stack : Array Value) :
    (vars.refill kept stack).value x = vars.value x := by
  have pushAll (vs : List Value) (vars : Variables) (old : x < vars.count) :
      (vs.foldl push vars).value x = vars.value x := by
    induction vs generalizing vars with
    | nil => rfl
    | cons v rest ih =>
      exact (ih _ (Nat.lt_succ_of_lt old)).trans (Function.update_of_ne old.ne _ _)
  exact pushAll _ { vars with slots := vars.slots.take kept } old

theorem value_conclude (old : x < vars.count) (stop : Stop) :
    (vars.conclude stop).value x = vars.value x := by
  cases stop with
  | failed => exact value_refill old 0 #[]
  | finished | broken | paused => rfl

theorem value_store {x? : Option Nat} (ne : x? ≠ some x) (v? : Option Value) :
    (vars.store x? v?).value x = vars.value x := by
  cases x? with
  | none => rfl
  | some y =>
    cases v? with
    | none => rfl
    | some v => exact Function.update_of_ne (fun eq => ne (congrArg some eq.symm)) _ _

/-- The value of a variable stays as it is, unless the next instruction stores into it. -/
theorem value_after (old : x < vars.count) {m : Machine} (other : m.target? vars ≠ some x)
    (m' : Machine) (kept : Nat) : (vars.after m m' kept).value x = vars.value x := by
  have refilled := value_refill old kept m'.stack
  -- An old variable lives where it lived before.
  have slot {j : Nat} (ne : vars.slots[j]? ≠ some x) :
      (vars.refill kept m'.stack).slots[j]? ≠ some x := fun found =>
    ((Later.refill vars kept m'.stack).slots j x found).elim ne (Nat.not_le_of_lt old)
  have captured (h : Handle) : (vars.refill kept m'.stack).captured h = vars.captured h :=
    captured_congr (captures_refill ..) h
  unfold after
  unfold Machine.target? at other
  split
  next op operands f next head =>
    simp only [next, head] at other ⊢
    split
    · exact (value_store (slot other) _).trans refilled
    · exact (value_store (by rwa [captured]) _).trans refilled
    · exact (value_store (slot other) _).trans refilled
    · exact (value_store (slot other) _).trans refilled
    · split <;> exact refilled
    · exact refilled
  next => exact refilled

end Variables

namespace Machine

variable {m : Machine} {vars : Variables} {config : Config} {sink : Sink} {uptime : Number}
  {s s' : Machine × Variables}

theorem Moves.later (moves : Moves s s') : s.2.Later s'.2 := by
  cases moves with
  | defineNative | intern | allocate | collect | tick => exact .refl _
  | enter => exact .refill _ _ _
  | refuse => exact (Variables.Later.refill _ _ _).trans (.conclude _ _)
  | step => exact .after _ _ _ _
  | stop => exact (Variables.Later.after _ _ _ _).trans (.conclude _ _)

theorem Executes.later (executes : Executes s s') : s.2.Later s'.2 := by
  induction executes with
  | refl => exact .refl _
  | tail _ moves ih => exact ih.trans moves.later

/-- A variable keeps its value until an instruction stores into it. -/
theorem Moves.value {x : Nat} (moves : Moves s s') (old : x < s.2.count) :
    s'.2.value x = s.2.value x ∨ s.1.target? s.2 = some x := by
  refine or_iff_not_imp_right.mpr fun other => ?_
  have young {vars : Variables} (later : s.2.Later vars) : x < vars.count :=
    Nat.lt_of_lt_of_le old later.grown
  cases moves with
  | defineNative | intern | allocate | collect | tick => rfl
  | enter => exact Variables.value_refill old _ _
  | refuse =>
    exact (Variables.value_conclude (young (.refill _ _ _)) _).trans
      (Variables.value_refill old _ _)
  | step => exact Variables.value_after old other _ _
  | stop =>
    exact (Variables.value_conclude (young (.after _ _ _ _)) _).trans
      (Variables.value_after old other _ _)

/-! ## Shared variables -/

/-- Captured variables behave as one shared cell. After any execution that treats captured slots as it
should, reading a captured variable through any closure yields the value that was stored most
recently into the variable that the closure has captured, and reading a slot yields that of the
variable that lives there. A value stays until an instruction stores into the variable: into its
slot, also as that of a callee, or through a closure. No variable lives in two slots; and where a
variable lives later on, it lived before, or it is another one than those that lived in slots or
had been captured. -/
theorem Executes.captured_variables_shared
    (executes : Executes (start config sink uptime, .blank) (m, vars)) :
    (∀ f operands, m.frames.head? = some f → m.next? = some ⟨.getUpvalue, operands⟩ →
      m.Yields vars (vars.captured f.closure)[operands.getD 0 0]?) ∧
    (∀ f operands, m.frames.head? = some f → m.next? = some ⟨.getLocal, operands⟩ →
      m.Yields vars vars.slots[f.base + operands.getD 0 0]?) ∧
    (∀ s, Moves (m, vars) s → ∀ x, x ∈ vars.slots ∨ vars.IsCaptured x →
      s.2.value x = vars.value x ∨ m.target? vars = some x) ∧
    vars.slots.Nodup ∧
    ∀ s, Executes (m, vars) s → ∀ (j x : Nat), s.2.slots[j]? = some x →
      vars.slots[j]? = some x ∨ x ∉ vars.slots ∧ ¬ vars.IsCaptured x := by
  obtain ⟨reachable, track⟩ := executes.track
  have intact := reachable.intact
  have fetched (events : List ExecutionEvent) : vars.Track (m.fetched events) :=
    track.congr rfl rfl
  refine ⟨fun f operands head next => ?_, fun f operands head next => ?_,
    fun s moves x known => ?_, ?_, fun s later j x found => ?_⟩
  · obtain ⟨events, eq⟩ := Exec.step_eq_nextIp none next
    exact yields_of_leaves eq (getUpvalue_leaves ((intact.withIp _).withEvents _) (fetched events)
      (Exec.head?_fetched head events) _)
  · obtain ⟨events, eq⟩ := Exec.step_eq_nextIp none next
    exact yields_of_leaves eq (getLocal_leaves (fetched events) (Exec.head?_fetched head events) _)
  · obtain ⟨owner, describe, -⟩ := track
    exact moves.value (known.elim (describe.old x) (describe.caught x))
  · obtain ⟨owner, describe, -⟩ := track
    exact describe.distinct
  · obtain ⟨owner, describe, -⟩ := track
    refine (later.later.slots j x found).imp_right fun new => ⟨fun mem => ?_, fun captured => ?_⟩
    · exact Nat.not_lt_of_le new (describe.old x mem)
    · exact Nat.not_lt_of_le new (describe.caught x captured)

/-! ## A run in which captured variables are shared -/

/-- The next step, with what it does to variables. -/
def tracked (s : Machine × Variables) : Machine × Variables :=
  let m := s.1.left Exec.step none
  (m, s.2.after s.1 m (s.1.staying m))

/-- The next steps, as many as given, go on and treat captured slots as they should. -/
def tracks : Nat → Machine × Variables → Bool
  | 0, _ => true
  | count + 1, s =>
    let m := s.1.left Exec.step none
    s.1.stopped? Exec.step none = none && decide (s.2.Obeys s.1 m (s.1.staying m)) &&
      tracks count (tracked s)

theorem Executes.iterate {count : Nat} {s₀ : Machine × Variables} (executes : Executes s₀ s)
    (tracks : tracks count s) : Executes s₀ (tracked^[count] s) := by
  induction count generalizing s with
  | zero => exact executes
  | succ count ih =>
    simp only [Machine.tracks, Bool.and_eq_true, decide_eq_true_eq] at tracks
    obtain ⟨⟨goes, obeys⟩, later⟩ := tracks
    exact ih (executes.tail (.step (eq_ok_of_stopped? goes) obeys)) later

/-- A machine that has entered a script that makes a closure and calls it. This makes another closure,
over a variable of its own that holds a number, and returns it. The script then calls that one,
which stores a truth value into the variable and reads it. The machine collects before every
allocation. -/
def sharing : Machine × Variables :=
  let m := start { diagnostics := { stressCollections := true } } default .zero
  let inner : Chunk Value :=
    ⟨#[Opcode.pushTrue.byte, Opcode.setUpvalue.byte, 0, Opcode.getUpvalue.byte, 0], #[], #[]⟩
  let (f, m) := m.allocate (.function ⟨none, 0, 1, inner⟩) []
  let outer : Chunk Value :=
    ⟨#[Opcode.constant.byte, 0, Opcode.closure.byte, 1, 1, 1, Opcode.ret.byte], #[],
      #[.number (.ofNat 5), .object f]⟩
  let (g, m) := m.allocate (.function ⟨none, 0, 0, outer⟩) [f]
  let script : Chunk Value :=
    ⟨#[Opcode.closure.byte, 0, Opcode.call.byte, 0, Opcode.call.byte, 0], #[], #[.object g]⟩
  let (h, m) := m.allocate (.function (.script script)) [g]
  let entered := m.left (enter h) none
  (entered, Variables.blank.refill m.stack.size entered.stack)

/-- The frame of the variable has returned, so the variable lives in no slot. What takes its slot is
another one. -/
theorem captured_variables_shared_sharing :
    let reading := tracked^[8] sharing
    Executes (start { diagnostics := { stressCollections := true } } default .zero, .blank) reading ∧
    reading.1.next? = some ⟨.getUpvalue, [0]⟩ ∧
    (reading.2.captured ⟨8⟩)[0]? = some 2 ∧ 2 ∉ reading.2.slots ∧
    ∃ m', Exec.step none reading.1 = .ok ⟨⟩ m' ∧ m'.stack = reading.1.stack.push (.bool true) := by
  intro reading
  have executes :
      Executes (start { diagnostics := { stressCollections := true } } default .zero, .blank)
        reading := by
    refine Executes.iterate ?_ (by decide +kernel : tracks 8 sharing = true)
    refine .tail (.tail (.tail (.tail .refl (.allocate _ [])) (.allocate _ _)) (.allocate _ _))
      (.enter _ (eq_ok_of_stopped? ?_))
    decide +kernel
  have head : reading.1.frames.head? = some ⟨⟨8⟩, ⟨3⟩, 3, 1⟩ := by decide +kernel
  have next : reading.1.next? = some ⟨.getUpvalue, [0]⟩ := by decide +kernel
  have captured : (reading.2.captured ⟨8⟩)[0]? = some 2 := by decide +kernel
  have room : reading.1.stack.size < reading.1.config.stackLimit := by decide +kernel
  have value : reading.2.value 2 = .bool true := by decide +kernel
  obtain ⟨yields, -⟩ := executes.captured_variables_shared
  obtain ⟨m', ran, stack⟩ := (yields _ _ head next).1 2 captured room
  exact ⟨executes, next, captured, by decide +kernel, m', ran, value ▸ stack⟩

end Machine

end ScriptMachine
