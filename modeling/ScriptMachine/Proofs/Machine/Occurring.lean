/-
# Open captured variables are listed

Hosts do as they like with a machine between runs, and byte code may be
anything. In all machines that come about in this way the list of open captured
variables is in step with the heap: it holds those and only those that are open,
each with its slot, and in the order of the slots.

So no slot has two of them. Whoever captures a slot a second time is given the
captured variable of the first time; and closing from a slot on, which only
looks at the front of the list, closes all that it should and no other.

## Main definitions

* `Machine.Hosts` — what a host does to a machine between runs
* `Machine.Occurs` — the machines that come about

## Main results

* `Occurs.intact` — these machines are intact
* `Occurs.open_variables_listed` — the list of open captured variables is exact
-/

import ScriptMachine.Proofs.Machine.Returning

namespace ScriptMachine

open Heap

namespace Machine

variable {m m' : Machine} {h : Handle} {slot : Nat}

/-- What a host does to a machine between runs. It puts functions and host functions into the heap,
and strings by interning them. -/
inductive Hosts (m : Machine) : Machine → Prop
  | defineNative (native : Native) : Hosts m (m.defineNative native)
  | intern (text : String) (extra : List Handle) : Hosts m (m.intern text extra).2
  | function (f : Function) (extra : List Handle) : Hosts m (m.allocate (.function f) extra).2
  | native (native : Native) (extra : List Handle) : Hosts m (m.allocate (.native native) extra).2
  | collect : Hosts m m.collect
  /-- Time passes. -/
  | tick (uptime : Number) : Hosts m { m with uptime }
  /-- What has been printed is taken away. -/
  | drain (sink : Sink) : Hosts m { m with sink }

/-- The machines that come about at the boundaries of instructions, whatever hosts do and whatever
byte code they run. -/
inductive Occurs : Machine → Prop
  | start (config : Config) (sink : Sink) (uptime : Number) : Occurs (start config sink uptime)
  | host {m m' : Machine} (occurs : Occurs m) (hosts : m.Hosts m') : Occurs m'
  | enter {m m' : Machine} (occurs : Occurs m) (h : Handle)
    (ran : enter h none m = .ok ⟨⟩ m') : Occurs m'
  /-- The function cannot be run. -/
  | refuse {m m' : Machine} {stop : Stop} (occurs : Occurs m) (h : Handle)
    (ran : enter h none m = .error stop m') : Occurs (m'.conclude stop).2
  | step {m m' : Machine} (occurs : Occurs m) (ran : Exec.step none m = .ok ⟨⟩ m') : Occurs m'
  /-- The run ends. -/
  | stop {m m' : Machine} {stop : Stop} (occurs : Occurs m)
    (ran : Exec.step none m = .error stop m') : Occurs (m'.conclude stop).2

/-! ## Invariants -/

theorem Hosts.intact (hosts : m.Hosts m') (intact : m.Intact .any) : m'.Intact .any := by
  cases hosts with
  | defineNative native => exact intact.defineNative native
  | intern text extra => exact intact.intern text extra
  | function f extra =>
    exact intact.allocate extra nofun nofun ⟨fun _ _ => trivial, fun _ _ _ _ => trivial⟩
  | native native extra => exact intact.allocate extra nofun nofun trivial
  | collect => exact intact.collect
  | tick uptime => exact intact.withUptime uptime
  | drain sink => exact intact.withSink sink

theorem Occurs.intact (occurs : m.Occurs) : m.Intact .any := by
  induction occurs with
  | start config sink uptime => exact intact_start .any config sink uptime
  | host _ hosts ih => exact hosts.intact ih
  | enter _ h ran ih => exact ((Exec.Ensures.enter ih).of_ok ran).1
  | refuse _ h ran ih => exact ((Exec.Ensures.enter ih).of_error ran).intact.conclude _
  | step _ ran ih => exact ((Exec.Ensures.step ih (framed_of_step ran) (honest_any _)).of_ok ran).1
  | @stop m m' stop _ ran ih =>
    by_cases idle : m.frames = []
    · rw [step_of_frames_eq_nil idle] at ran
      cases ran
      exact ih.conclude _
    · exact ((Exec.Ensures.step ih idle m.honest_any).of_error ran).intact.conclude _

/-- Machines that a host brings about under promises occur. -/
theorem Reachable.occurs {c : Custody} (reachable : m.Reachable c) : m.Occurs := by
  induction reachable with
  | start config sink uptime => exact .start config sink uptime
  | defineNative _ native ih => exact ih.host (.defineNative native)
  | intern _ text extra ih => exact ih.host (.intern text extra)
  | allocate _ f extra _ ih => exact ih.host (.function f extra)
  | collect _ ih => exact ih.host .collect
  | tick _ uptime ih => exact ih.host (.tick uptime)
  | enter _ h ran ih => exact ih.enter h ran
  | refuse _ h ran ih => exact ih.refuse h ran
  | step _ _ ran ih => exact ih.step ran
  | stop _ _ ran ih => exact ih.stop ran

theorem Occurs.left_enter (occurs : m.Occurs) {function : Handle}
    (goes : m.stopped? (Machine.enter function) none = none) :
    (m.left (Machine.enter function) none).Occurs := occurs.enter function (eq_ok_of_stopped? goes)

theorem Occurs.left_step (occurs : m.Occurs) (goes : m.stopped? Exec.step none = none) :
    (m.left Exec.step none).Occurs := occurs.step (eq_ok_of_stopped? goes)

/-- If the next steps all go through, the first one of them does. -/
theorem exists_step_of_steps {bound : Nat} (goes : (m.steps (bound + 1)).1 = none) :
    ∃ m', Exec.step none m = .ok ⟨⟩ m' ∧ m.steps (bound + 1) = m'.steps bound := by
  rw [Machine.steps] at goes ⊢
  cases ran : Exec.step none m with
  | ok _ m' => exact ⟨m', rfl, rfl⟩
  | error stop m' =>
    rw [ran] at goes
    cases goes

theorem Occurs.steps {bound : Nat} (occurs : m.Occurs) (goes : (m.steps bound).1 = none) :
    (m.steps bound).2.Occurs := by
  induction bound generalizing m with
  | zero => exact occurs
  | succ bound ih =>
    obtain ⟨m', ran, eq⟩ := exists_step_of_steps goes
    rw [eq] at goes ⊢
    exact ih (occurs.step ran) goes

/-! ## The list -/

theorem Intact.upvalue?_eq_opened_iff {c : Custody} (intact : m.Intact c) :
    m.heap.upvalue? h = some (.opened slot) ↔ ⟨slot, h⟩ ∈ m.openUpvalues :=
  ⟨intact.complete h slot, fun mem => intact.listed ⟨slot, h⟩ mem⟩

/-- No slot is listed twice. -/
theorem Intact.eq_of_slot_eq {c : Custody} (intact : m.Intact c) {e e' : OpenUpvalue}
    (mem : e ∈ m.openUpvalues) (mem' : e' ∈ m.openUpvalues) (same : e.slot = e'.slot) : e = e' := by
  have nodup : (m.openUpvalues.map (·.slot)).Nodup :=
    List.pairwise_map.mpr (intact.sorted.imp fun lt => Nat.ne_of_gt lt)
  exact List.inj_on_of_nodup_map nodup mem mem' same

theorem Intact.openUpvalue?_eq_some_iff {c : Custody} (intact : m.Intact c) :
    m.openUpvalue? slot = some h ↔ ⟨slot, h⟩ ∈ m.openUpvalues := by
  refine ⟨mem_of_openUpvalue?, fun mem => ?_⟩
  cases listed : m.openUpvalue? slot with
  | none => exact absurd rfl (slot_ne_of_openUpvalue? listed _ mem)
  | some h' =>
    have same := intact.eq_of_slot_eq (mem_of_openUpvalue? listed) mem rfl
    rw [(OpenUpvalue.mk.inj same).2]

/-- What is left of a sorted list after the slots from one on have been taken from its front. -/
theorem dropWhile_eq_filter {entries : List OpenUpvalue}
    (sorted : entries.Pairwise fun e e' => e'.slot < e.slot) :
    entries.dropWhile (slot ≤ ·.slot) = entries.filter (·.slot < slot) := by
  induction entries with
  | nil => rfl
  | cons first rest ih =>
    obtain ⟨above, sorted'⟩ := List.pairwise_cons.mp sorted
    by_cases le : slot ≤ first.slot
    · rw [List.dropWhile_cons_of_pos (by simpa using le),
        List.filter_cons_of_neg (by simpa using le), ih sorted']
    · rw [List.dropWhile_cons_of_neg (by simpa using le), List.filter_eq_self.mpr]
      intro e mem
      rcases List.mem_cons.mp mem with rfl | mem
      · simpa using le
      · have := above e mem
        simp only [decide_eq_true_eq]
        omega

theorem Intact.openUpvalues_closeFrom {c : Custody} (intact : m.Intact c) (slot : Nat) :
    (m.closeFrom slot).openUpvalues = m.openUpvalues.filter (·.slot < slot) := by
  rw [closeFrom_eq]
  exact dropWhile_eq_filter intact.sorted

/-! ## Capturing a slot -/

/-- A slot that has been captured is not captured again. -/
theorem Intact.captureSlot_of_opened {c : Custody} (intact : m.Intact c)
    (found : m.heap.upvalue? h = some (.opened slot)) (watch : Option Handle) :
    Exec.captureSlot slot watch m = .ok h m := by
  have listed := intact.openUpvalue?_eq_some_iff.mpr (intact.complete h slot found)
  unfold Exec.captureSlot
  refine (Exec.bind_eq (x := get) (a := m) rfl _).trans ?_
  rw [listed]
  rfl

/-- Whether a slot has been captured before or not, it is captured now. -/
theorem Intact.captureSlot_eq (intact : m.Intact .any) (slot : Nat) :
    ∃ h m', Exec.captureSlot slot none m = .ok h m' ∧ m'.Intact .any ∧
      m'.heap.upvalue? h = some (.opened slot) := by
  cases listed : m.openUpvalue? slot with
  | some h =>
    have found := intact.listed _ (mem_of_openUpvalue? listed)
    exact ⟨h, m, intact.captureSlot_of_opened found none, intact, found⟩
  | none =>
    have intact' := intact.capture listed
    refine ⟨_, _, ?_, intact', intact'.listed _ (mem_insertOpen_iff.mpr (.inl rfl))⟩
    unfold Exec.captureSlot
    refine (Exec.bind_eq (x := get) (a := m) rfl _).trans ?_
    rw [listed]
    rfl

/-- The list of open captured variables is in the order of the slots, and holds exactly those that
are open, each with its slot. So there is one for a slot at most; a slot that has been captured
gives the same one when it is captured again; and closing from a slot on closes exactly those of
this slot and above, over the values there, and leaves all else as it is. -/
theorem Occurs.open_variables_listed (occurs : m.Occurs) :
    (m.openUpvalues.map (·.slot)).reverse.Pairwise (· < ·) ∧
    (∀ h slot, ⟨slot, h⟩ ∈ m.openUpvalues ↔ m.heap.get? h = some (.upvalue (.opened slot))) ∧
    (∀ h h' slot, m.heap.upvalue? h = some (.opened slot) →
      m.heap.upvalue? h' = some (.opened slot) → h = h') ∧
    (∀ h slot, m.heap.upvalue? h = some (.opened slot) → Exec.captureSlot slot none m = .ok h m) ∧
    (∀ slot, ∃ h m', Exec.captureSlot slot none m = .ok h m' ∧
      m'.heap.upvalue? h = some (.opened slot) ∧ Exec.captureSlot slot none m' = .ok h m') ∧
    ∀ k, (m.closeFrom k).openUpvalues = m.openUpvalues.filter (·.slot < k) ∧
      (∀ h j, m.heap.upvalue? h = some (.opened j) → (m.closeFrom k).heap.get? h =
        some (.upvalue (if k ≤ j then .closed (m.stack[j]?.getD .nil) else .opened j))) ∧
      ∀ h, (∀ j, m.heap.upvalue? h ≠ some (.opened j)) →
        (m.closeFrom k).heap.get? h = m.heap.get? h := by
  have intact := occurs.intact
  refine ⟨?_, fun h slot => ?_, fun h h' slot found found' => ?_,
    fun h slot found => intact.captureSlot_of_opened found none, fun slot => ?_, fun k =>
      ⟨intact.openUpvalues_closeFrom k, fun h j found => ?_, fun h other => ?_⟩⟩
  · exact List.pairwise_reverse.mpr (List.pairwise_map.mpr intact.sorted)
  · rw [← upvalue?_eq_some_iff]
    exact intact.upvalue?_eq_opened_iff.symm
  · have same := intact.eq_of_slot_eq (intact.complete h slot found)
      (intact.complete h' slot found') rfl
    exact (OpenUpvalue.mk.inj same).2
  · obtain ⟨h, m', captured, intact', found⟩ := intact.captureSlot_eq slot
    exact ⟨h, m', captured, found, intact'.captureSlot_of_opened found none⟩
  · rw [intact.get?_closeFrom, get?_of_upvalue? found]
  · rw [intact.get?_closeFrom]
    split
    next j found => exact absurd (upvalue?_eq_some_iff.mpr found) (other j)
    next => rfl

/-- A script has captured its first two slots. The first one is not captured again, and closing from
the second one on leaves it open. -/
theorem open_variables_listed_returning :
    returning.Occurs ∧ returning.openUpvalues = [⟨1, ⟨8⟩⟩, ⟨0, ⟨7⟩⟩] ∧
    Exec.captureSlot 0 none returning = .ok ⟨7⟩ returning ∧
    (returning.closeFrom 1).openUpvalues = [⟨0, ⟨7⟩⟩] ∧
    (returning.closeFrom 1).heap.get? ⟨8⟩ = some (.upvalue (.closed (.number (.ofNat 5)))) ∧
    (returning.closeFrom 1).heap.get? ⟨7⟩ = some (.upvalue (.opened 0)) := by
  have occurs : returning.Occurs := by
    refine .left_step (.left_step (.left_step (.left_enter ?_ ?_) ?_) ?_) ?_
    · exact ((Occurs.start _ _ _).host (.function _ [])).host (.function _ [])
    all_goals decide +kernel
  have list : returning.openUpvalues = [⟨1, ⟨8⟩⟩, ⟨0, ⟨7⟩⟩] := by decide +kernel
  have first : returning.heap.upvalue? ⟨7⟩ = some (.opened 0) := by decide +kernel
  have second : returning.heap.upvalue? ⟨8⟩ = some (.opened 1) := by decide +kernel
  have number : returning.stack[1]? = some (.number (.ofNat 5)) := by decide +kernel
  obtain ⟨-, -, -, again, -, closing⟩ := occurs.open_variables_listed
  obtain ⟨left, opened, -⟩ := closing 1
  have closed := opened ⟨8⟩ 1 second
  rw [number] at closed
  rw [list] at left
  exact ⟨occurs, list, again ⟨7⟩ 0 first, left, closed, opened ⟨7⟩ 0 first⟩

end Machine

end ScriptMachine
