/-
# Runs end at rest

A run of a machine at rest puts its script into the lowest slot, and while it
goes on there is always a frame on that slot below all others. So when the last
frame returns, everything leaves the stack with it and every captured variable
is closed. An error drops everything at once. Either way the machine is at rest
again, and nothing is left over: the next collection frees all that neither the
globals nor the name of initializers refer to.

Byte code may do what it likes in between. It may take values off the stack that
belong to frames below, the script itself among them, or fail in the middle of
anything.

## Main definitions

* `Machine.AtRest`, `Machine.Tidy` — at rest, and nothing left over
* `Machine.Grounded` — the lowest frame lies on the lowest slot
* `Machine.Uses` — what a compiler may do with the machine

## Main results

* `Grounded.step` — the lowest frame stays where it is
* `Occurs.runs_end_tidy` — every run that comes to an end leaves nothing over
-/

import ScriptMachine.Proofs.Machine.Steady

namespace ScriptMachine

open Heap

/-! ## Actions that do not end a script -/

namespace Exec

variable {α β : Type} {x : Exec α} {f : α → Exec β}

/-- Where the action stops, the script has not returned. -/
def Persists (x : Exec α) : Prop :=
  ∀ watch m, match x watch m with
    | .error (.finished _) _ => False
    | _ => True

namespace Persists

theorem fail (kind : ErrorKind) : Persists (Exec.fail kind : Exec α) := fun _ _ => trivial

theorem bind (first : x.Persists) (next : ∀ a, (f a).Persists) : (x >>= f).Persists := by
  intro watch m
  have first := first watch m
  cases ran : x watch m with
  | ok a m' =>
    rw [bind_eq ran]
    exact next a watch m'
  | error stop m' =>
    rw [ran] at first
    rw [bind_error ran]
    cases stop with
    | finished v => exact first
    | failed | broken | paused => trivial

theorem ite {p : Prop} [Decidable p] {y : Exec α} (yes : x.Persists) (no : y.Persists) :
    (if p then x else y).Persists := by
  split
  · exact yes
  · exact no

/-- A test that stops with an error, and what comes after it. -/
theorem guard {p : Prop} [Decidable p] {kind : ErrorKind} {f : Unit → Exec Unit}
    (rest : (f ⟨⟩).Persists) : (if p then Exec.fail kind >>= f else f ⟨⟩).Persists :=
  ite (fun _ _ => trivial) rest

theorem get : Persists (MonadState.get : Exec Machine) := fun _ _ => trivial

theorem modify (g : Machine → Machine) : Persists (modify g : Exec Unit) := fun _ _ => trivial

theorem orFail (kind : ErrorKind) (o : Option α) : (Exec.orFail kind o).Persists := by
  cases o <;> exact fun _ _ => trivial

theorem orMalformed (flaw : Malformed) (o : Option α) : (Exec.orMalformed flaw o).Persists := by
  cases o <;> exact fun _ _ => trivial

theorem orBroken (fault : Fault) (o : Option α) : (Exec.orBroken fault o).Persists := by
  cases o <;> exact fun _ _ => trivial

theorem discard (first : x.Persists) : (Functor.discard x).Persists :=
  bind (f := fun _ => Pure.pure ()) first fun _ _ _ => trivial

theorem push (v : Value) : (Exec.push v).Persists := bind get fun _ => guard fun _ _ => trivial

theorem pop : Exec.pop.Persists :=
  bind (bind get fun _ => ite (orMalformed _ _) (fail _)) fun _ _ _ => trivial

theorem allocate (object : Object) : (Exec.allocate object).Persists :=
  bind (fun _ _ => trivial) fun _ => bind (bind (fun _ _ => trivial) fun _ =>
    ite (fun _ _ => trivial) fun _ _ => trivial) fun _ _ _ => trivial

theorem call (h : Handle) (count : Nat) : (Exec.call h count).Persists := by
  have slot : (Exec.calleeSlot count).Persists :=
    bind get fun _ => ite (fun _ _ => trivial) (fail _)
  exact bind get fun _ => bind (orFail _ _) fun _ => bind get fun _ => bind (orBroken _ _) fun _ =>
    guard (bind get fun _ => guard (bind slot fun _ => modify _))

/-- Entering a function does not end it. -/
theorem enter (h : Handle) : (Machine.enter h).Persists :=
  bind get fun _ => bind (discard (orFail _ _)) fun _ => bind (push _) fun _ =>
    bind (allocate _) fun _ => bind (discard pop) fun _ => bind (push _) fun _ => call _ _

end Persists

end Exec

namespace Machine

variable {m₀ m m' : Machine} {stop : Stop} {h : Handle}

/-! ## At rest -/

/-- Nothing is going on. -/
structure AtRest (m : Machine) : Prop where
  stack : m.stack = #[]
  frames : m.frames = []
  openUpvalues : m.openUpvalues = []

/-- The machine is at rest, nothing in the heap waits for a slot, and a collection leaves what can
be reached from the globals and the name of initializers. -/
structure Tidy (m : Machine) : Prop extends AtRest m where
  closed : ∀ h slot, m.heap.get? h ≠ some (.upvalue (.opened slot))
  collected : ∀ h, m.collect.heap.contains h ↔
    m.heap.Reach (Object.tableReferences m.globals ++ [m.initKey.handle]) h

theorem AtRest.tidy {c : Custody} (rest : m.AtRest) (intact : m.Intact c) : m.Tidy where
  toAtRest := rest
  closed h slot found := by
    have listed := intact.complete h slot (upvalue?_eq_some_iff.mpr found)
    rw [rest.openUpvalues] at listed
    exact List.not_mem_nil listed
  collected h := by
    have roots : m.roots = Object.tableReferences m.globals ++ [m.initKey.handle] := by
      rw [roots, rest.stack, rest.frames, rest.openUpvalues]
      rfl
    rw [← roots]
    exact contains_collect_iff intact.heap.clean

theorem Intact.atRest_reset {c : Custody} (intact : m.Intact c) : m.reset.AtRest := by
  refine ⟨rfl, rfl, ?_⟩
  change (m.closeFrom 0).openUpvalues = []
  rw [intact.openUpvalues_closeFrom]
  simp

/-- After an error the machine is brought to rest. -/
theorem Intact.atRest_of_failed {c : Custody} (intact : m.Intact c) (kind : ErrorKind) :
    (m.conclude (.failed kind)).2.AtRest := by
  obtain ⟨backtrace, eq⟩ := intact.toSound.exists_backtrace
  simp only [Machine.conclude, eq]
  exact (intact.record _).atRest_reset

/-! ## The lowest frame -/

/-- The slots on which the frames lie, the innermost first. -/
def bases (m : Machine) : List Nat := m.frames.map (·.base)

/-- There is a frame, and the lowest one lies on the lowest slot. -/
def Grounded (m : Machine) : Prop := m.bases.getLast? = some 0

theorem Grounded.framed (grounded : m.Grounded) : m.frames ≠ [] := by
  intro idle
  rw [Grounded, bases, idle] at grounded
  cases grounded

theorem bases_withIp (m : Machine) (ip : Nat) : (m.withIp ip).bases = m.bases := by
  unfold bases withIp
  cases m.frames <;> rfl

theorem Rooted.bases_eq (rooted : m₀.Rooted m) : m.bases = m₀.bases := by
  obtain ⟨ip, eq⟩ := rooted.frames
  rw [← m₀.bases_withIp ip, bases, eq, bases]

theorem Entered.grounded {slot : Nat} (entered : m₀.Entered slot m) (grounded : m₀.Grounded) :
    m.Grounded := by
  rw [Grounded, bases] at grounded ⊢
  obtain same | ⟨f, pushed, -⟩ := entered.frames
  · rwa [same]
  · rw [pushed, List.map_cons, List.getLast?_cons, grounded, Option.getD_some]

theorem Grounded.returnValue (grounded : m.Grounded) (intact : m.Intact .any)
    (regular : m.Regular) :
    Exec.returnValue.Leaves m (fun _ m' => m'.Grounded) fun m' => m'.frames = [] → m'.AtRest := by
  obtain ⟨f, rest, frames⟩ := List.exists_cons_of_ne_nil grounded.framed
  have head : m.frames.head? = some f := by rw [frames, List.head?_cons]
  have bases : m.bases = f.base :: rest.map (·.base) := by rw [Machine.bases, frames, List.map_cons]
  rw [Grounded, bases] at grounded
  have left : (m.unwind f.base).frames = rest := by rw [frames_unwind, frames, List.tail_cons]
  cases top : m.stack.back? with
  | none =>
    have empty : m.stack.size = 0 := by simpa [Array.back?] using top
    rw [Exec.Leaves, returnValue_of_empty empty]
    exact fun idle => absurd idle (by rw [frames]; exact List.cons_ne_nil _ _)
  | some v =>
    rw [Exec.Leaves, Exec.returnValue_eq_ok regular head top, frames, List.tail_cons]
    cases rest with
    -- The lowest frame takes everything along.
    | nil =>
      have base : f.base = 0 := Option.some.inj grounded
      rw [if_pos List.isEmpty_nil, base]
      refine fun _ => ⟨?_, base ▸ left, ?_⟩
      · simp only [unwind, Array.take_eq_extract]
        exact Array.extract_zero
      · rw [intact.openUpvalues_unwind]
        simp
    | cons g rest =>
      rw [if_neg (by simp)]
      change (List.map _ (m.unwind f.base).frames).getLast? = some 0
      rw [left]
      simpa using grounded

theorem Grounded.perform (grounded : m.Grounded) (intact : m.Intact .any) (regular : m.Regular)
    (op : Opcode) (a b : Nat) :
    (Exec.perform op a b).Leaves m (fun _ m' => m'.Grounded)
      fun m' => m'.frames = [] → m'.AtRest := by
  have rooted {m' : Machine} (rooted : m.Rooted m') : m'.Grounded := by
    rw [Grounded, rooted.bases_eq]
    exact grounded
  have steady (m' : Machine) (steady : m.Steady m') (idle : m'.frames = []) : m'.AtRest :=
    absurd idle (rooted steady.toRooted).framed
  cases op with
  | call | invoke | superInvoke =>
    exact (Exec.calls_leaves regular rfl a b).mono (fun _ _ entered => entered.grounded grounded)
      steady
  | closeUpvalue =>
    change Exec.closeTop.Leaves _ _ _
    by_cases empty : m.stack.size = 0
    · rw [Exec.Leaves, closeTop_of_empty empty]
      exact fun idle => absurd idle grounded.framed
    · rw [Exec.Leaves, closeTop_eq empty]
      change (List.map _ (m.closeFrom (m.stack.size - 1)).frames).getLast? = some 0
      rw [closeFrom_eq]
      exact grounded
  | ret => exact grounded.returnValue intact regular
  | _ => exact (Exec.perform_leaves intact regular rfl a b).mono (fun _ _ => rooted) steady

/-- The lowest frame stays where it is as long as the run goes on. When no frame is left, the
machine is at rest. -/
theorem Grounded.step (grounded : m.Grounded) (intact : m.Intact .any) (regular : m.Regular) :
    Exec.step.Leaves m (fun _ m' => m'.Grounded) fun m' => m'.frames = [] → m'.AtRest := by
  cases next : m.next? with
  | none =>
    obtain ⟨_, events, eq⟩ := intact.step_of_next?_eq_none grounded.framed next
    rw [Exec.Leaves, eq]
    exact fun idle => absurd idle (frames_withIp_ne_nil grounded.framed _)
  | some instruction =>
    obtain ⟨events, eq⟩ := Exec.step_eq_nextIp none next
    have fetched : (m.fetched events).Grounded :=
      (congrArg List.getLast? (m.bases_withIp m.nextIp)).trans grounded
    rw [Exec.Leaves, eq]
    exact fetched.perform (intact.fetched events) (regular.fetched events) _ _ _

/-! ## Runs -/

/-- Where a step stops, the run ends at rest: without a frame if the script has returned, and by
dropping everything if it has failed. -/
theorem Grounded.atRest_conclude (grounded : m.Grounded) (intact : m.Intact .any)
    (regular : m.Regular) (ran : Exec.step none m = .error stop m') :
    (m'.conclude stop).2.AtRest := by
  have halted := (Exec.Ensures.step intact grounded.framed m.honest_any).of_error ran
  cases stop with
  | finished v => exact (grounded.step intact regular).of_error ran halted.2.2
  | failed kind => exact Intact.atRest_of_failed halted kind
  | broken fault => exact halted.elim
  | paused => exact absurd rfl halted.1

theorem Occurs.steps_rest {bound : Nat} (occurs : m.Occurs) (grounded : m.Grounded)
    (ran : m.steps bound = (some stop, m')) :
    (m'.conclude stop).2.Occurs ∧ (m'.conclude stop).2.AtRest := by
  induction bound generalizing m with
  | zero => cases ran
  | succ bound ih =>
    rw [Machine.steps] at ran
    have step := grounded.step occurs.intact occurs.regular
    cases next : Exec.step none m with
    | ok _ m'' =>
      rw [next] at ran
      exact ih (occurs.step next) (step.of_ok next) ran
    | error stop' m'' =>
      rw [next] at ran
      cases ran
      exact ⟨occurs.stop next, grounded.atRest_conclude occurs.intact occurs.regular next⟩

/-- A function that is entered has a frame of its own, on top of what there was. -/
theorem enter_pushes (m : Machine) (h : Handle) : (Machine.enter h).Leaves m
    (fun _ m' => ∃ f, m'.frames = f :: m.frames ∧ f.base = m.stack.size) fun _ => True := by
  refine .get_bind (.bind (.discard (.of_reads (.orFail _ _) (fun _ => ?_) trivial)))
  refine .bind (.push (.bind (.allocate (.bind (.discard (.pop (fun _ => ?_) trivial))))) trivial)
  refine .bind (.push (.get_bind (.read (.orFail _ _) (fun _ => .get_bind
    (.read (.orBroken _ _) (fun _ => .guard trivial (.get_bind (.guard trivial (.bind
      (.calleeSlot (fun _ => ?_) trivial))))) trivial)) trivial)) trivial)
  refine ⟨_, rfl, ?_⟩
  change ((m.stack.push (.object h)).pop.push _).size - 1 - 0 = m.stack.size
  rw [Array.pop_push, Array.size_push]
  rfl

/-- The script takes the lowest slot, as the stack was empty. -/
theorem AtRest.enter_leaves (rest : m.AtRest) (h : Handle) :
    (Machine.enter h).Leaves m (fun _ m' => m'.Grounded) fun _ => True := by
  refine (m.enter_pushes h).mono (fun _ m' ⟨f, frames, base⟩ => ?_) fun _ _ => trivial
  rw [Grounded, bases, frames, rest.frames, List.map_singleton, base, rest.stack]
  rfl

theorem Occurs.enter_rest (occurs : m.Occurs) (ran : Machine.enter h none m = .error stop m') :
    (m'.conclude stop).2.AtRest := by
  have halted := (Exec.Ensures.enter occurs.intact).of_error ran
  have goes := Exec.Persists.enter h none m
  rw [ran] at goes
  cases stop with
  | finished v => exact goes.elim
  | failed kind => exact Intact.atRest_of_failed halted kind
  | broken fault => exact halted.elim
  | paused => exact absurd rfl halted.1

/-- A run that comes to an end leaves the machine at rest. -/
theorem Occurs.runFunction {bound : Nat} (occurs : m.Occurs) (rest : m.AtRest)
    (done : (m.runFunction bound h).1 ≠ .unfinished) :
    (m.runFunction bound h).2.Occurs ∧ (m.runFunction bound h).2.AtRest := by
  unfold Machine.runFunction at done ⊢
  cases entered : Machine.enter h none m with
  | error stop m' => exact ⟨occurs.refuse h entered, occurs.enter_rest entered⟩
  | ok _ m' =>
    rw [entered] at done
    have grounded := (rest.enter_leaves h).of_ok entered
    cases ran : m'.steps bound with
    | mk stop m'' =>
      cases stop with
      | none =>
        simp only [ran] at done
        exact absurd rfl done
      | some stop =>
        simp only [ran]
        exact (occurs.enter h entered).steps_rest grounded ran

/-! ## Hosts and compilers -/

theorem Hosts.atRest (hosts : m.Hosts m') (rest : m.AtRest) : m'.AtRest := by
  cases hosts <;> exact ⟨rest.stack, rest.frames, rest.openUpvalues⟩

/-- What a compiler may do with the machine that it compiles for: what hosts do, and runs of its own
that come to an end. -/
inductive Uses (m : Machine) : Machine → Prop
  | host {m' : Machine} (hosts : m.Hosts m') : Uses m m'
  | run (bound : Nat) (h : Handle) (done : (m.runFunction bound h).1 ≠ .unfinished) :
    Uses m (m.runFunction bound h).2

theorem Occurs.use (occurs : m.Occurs) (rest : m.AtRest) (uses : m.Uses m') :
    m'.Occurs ∧ m'.AtRest := by
  cases uses with
  | host hosts => exact ⟨occurs.host hosts, hosts.atRest rest⟩
  | run bound h done => exact occurs.runFunction rest done

theorem Occurs.useAll (occurs : m.Occurs) (rest : m.AtRest)
    (uses : Relation.ReflTransGen Uses m m') : m'.Occurs ∧ m'.AtRest := by
  induction uses with
  | refl => exact ⟨occurs, rest⟩
  | tail _ use ih => exact ih.1.use ih.2 use

/-- A run of a machine at rest that comes to an end, with a value or with any error, leaves it at
rest, and nothing over: no captured variable is open, and a collection frees all that neither the
globals nor the name of initializers refer to. So it is whether a function is run, whatever its
handle is, or a chunk, or a text that is compiled with this machine first. -/
theorem Occurs.runs_end_tidy (occurs : m.Occurs) (rest : m.AtRest) :
    (∀ bound h, (m.runFunction bound h).1 ≠ .unfinished → (m.runFunction bound h).2.Tidy) ∧
    (∀ bound chunk, (m.runChunk bound chunk).1 ≠ .unfinished → (m.runChunk bound chunk).2.Tidy) ∧
    ∀ bound compile source, Relation.ReflTransGen Uses m (compile source m).2 →
      (m.runSource bound compile source).1 ≠ .unfinished →
        (m.runSource bound compile source).2.Tidy := by
  have tidy {m : Machine} (left : m.Occurs ∧ m.AtRest) : m.Tidy := left.2.tidy left.1.intact
  refine ⟨fun bound h done => tidy (occurs.runFunction rest done), fun bound chunk done => ?_,
    fun bound compile source uses done => ?_⟩
  · have hosts : m.Hosts (m.allocate (.function (.script chunk)) []).2 := .function _ []
    exact tidy ((occurs.host hosts).runFunction (hosts.atRest rest) done)
  · obtain ⟨occurs, rest⟩ := occurs.useAll rest uses
    unfold runSource at done ⊢
    split
    next e m' compiled =>
      rw [compiled] at occurs rest
      exact tidy ⟨occurs, rest⟩
    next h m' compiled =>
      rw [compiled] at occurs rest done
      exact tidy (occurs.runFunction rest done)

/-- A machine at rest with a function of two captured variables. -/
def furnished : Machine :=
  ((start {} default .zero).allocate (.function ⟨none, 0, 2, default⟩) []).2

/-- A script that makes a closure of this function over its own slot, and over a captured variable
that it does not have. -/
def overreaching : Chunk Value :=
  ⟨#[Opcode.closure.byte, 1, 1, 0, 0, 5], #[], #[.nil, .object ⟨3⟩]⟩

/-- The script fails when the first variable has been captured already. It is closed, and the next
collection frees it. -/
theorem runs_end_tidy_overreaching :
    furnished.Occurs ∧ furnished.AtRest ∧
    (furnished.runChunk 1 overreaching).1 =
      .runtimeError ⟨.malformed (.upvalueOutOfRange 5), [⟨0, none⟩]⟩ ∧
    (furnished.runChunk 1 overreaching).2.heap.upvalue? ⟨7⟩ = some (.closed (.object ⟨5⟩)) ∧
    (furnished.runChunk 1 overreaching).2.Tidy ∧
    (furnished.runChunk 1 overreaching).2.collect.heap.contains ⟨7⟩ = false ∧
    (furnished.runFunction 1 ⟨9⟩).2.Tidy ∧
    (furnished.runSource 1 (fun _ m => (.error ⟨[]⟩, m)) "").2.Tidy := by
  have occurs : furnished.Occurs := (Occurs.start _ _ _).host (.function _ [])
  have rest : furnished.AtRest := ⟨rfl, rfl, rfl⟩
  have outcome : (furnished.runChunk 1 overreaching).1 =
      .runtimeError ⟨.malformed (.upvalueOutOfRange 5), [⟨0, none⟩]⟩ := by decide +kernel
  have refused : (furnished.runFunction 1 ⟨9⟩).1 = .runtimeError ⟨.notCallable, []⟩ := by
    decide +kernel
  obtain ⟨functions, chunks, sources⟩ := occurs.runs_end_tidy rest
  refine ⟨occurs, rest, outcome, by decide +kernel, chunks 1 overreaching ?_, by decide +kernel,
    functions 1 ⟨9⟩ ?_, sources 1 _ "" .refl nofun⟩
  · rw [outcome]
    exact nofun
  · rw [refused]
    exact nofun

end Machine

end ScriptMachine
