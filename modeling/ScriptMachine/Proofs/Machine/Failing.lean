/-
# Failing changes nothing

An instruction that fails has done what it did before it failed: it may have
allocated objects, taken values off the stack or captured variables, and a
collection may have freed what nothing refers to. But nothing that programs can
tell apart later has changed. The globals have the values that they had, and
every class, instance and closed captured variable that is still live is as it
was; and so it is after the machine has been brought back to rest.

## Main definitions

* `Machine.Unharmed` — globals, classes, instances and closed captured variables are as they were

## Main results

* `Intact.spared_of_failed` — what a step that fails leaves alone
* `Occurs.failing_unharmed` — an instruction that fails does no harm
-/

import ScriptMachine.Proofs.Heap.Names
import ScriptMachine.Proofs.Machine.Sharing
import ScriptMachine.Proofs.Machine.Steady

namespace ScriptMachine

open Heap

namespace Machine

variable {m₀ m m' : Machine} {name : String} {v : Value} {kind : ErrorKind}

/-- The globals are as they were, and so are the classes, instances and closed captured variables
that are still live. -/
structure Unharmed (m after : Machine) : Prop where
  globals : ∀ name, after.global? name = m.global? name
  methods : ∀ h methods, m.heap.methods? h = some methods → after.heap.contains h →
    after.heap.methods? h = some methods
  fields : ∀ h owner fields, m.heap.instance? h = some (owner, fields) → after.heap.contains h →
    after.heap.instance? h = some (owner, fields)
  closed : ∀ h v, m.heap.upvalue? h = some (.closed v) → after.heap.contains h →
    after.heap.upvalue? h = some (.closed v)

/-! ## Globals by their names -/

/-- The names of globals are live strings. -/
theorem Sound.global?_eq_some_iff {c : Custody} (sound : m.Sound c) :
    m.global? name = some v ↔
      ∃ key, m.heap.text? key.handle = some name ∧ (key, v) ∈ m.globals.entries :=
  sound.globals.named?_eq_some_iff sound.heap.canonical

/-- Globals are found as before if they are the same ones, and their names have the same texts. The
names are still there, as the globals hold on to them. -/
theorem Sound.global?_congr {c : Custody} (sound : m.Sound c) (sound' : m'.Sound c)
    (same : ∀ key v, (key, v) ∈ m'.globals.entries ↔ (key, v) ∈ m.globals.entries)
    (texts : ∀ key v, (key, v) ∈ m.globals.entries → m'.heap.contains key.handle →
      m'.heap.text? key.handle = m.heap.text? key.handle) (name : String) :
    m'.global? name = m.global? name :=
  sound.globals.named?_congr sound'.globals sound.heap.canonical sound'.heap.canonical same texts
    name

theorem Spared.global?_eq {c : Custody} (spared : m.Spared m') (sound : m.Sound c)
    (sound' : m'.Sound c) (name : String) : m'.global? name = m.global? name := by
  refine sound.global?_congr sound' spared.globals (fun key v mem live => ?_) name
  obtain ⟨-, text, found, -⟩ := key?_eq_some_iff.mp (sound.globals.keys key v mem)
  obtain ⟨s, object, rfl⟩ := text?_eq_some_iff.mp found
  have same := spared.spares.same _ _ object trivial live
  rw [found, text?_eq_some_iff.mpr ⟨s, same, rfl⟩]

theorem Spared.unharmed {c : Custody} (spared : m.Spared m') (sound : m.Sound c)
    (sound' : m'.Sound c) : m.Unharmed m' where
  globals := spared.global?_eq sound sound'
  methods h methods found live := by
    obtain ⟨name, found⟩ := get?_of_methods? found
    rw [methods?, spared.spares.same h _ found trivial live]
  fields h owner fields found live := by
    rw [instance?, spared.spares.same h _ (get?_of_instance? found) trivial live]
  closed h v found live :=
    upvalue?_eq_some_iff.mpr (spared.spares.same h _ (get?_of_upvalue? found) trivial live)

/-! ## Failing -/

/-- An instruction that fails has changed no older object and no global. -/
theorem Intact.spared_of_perform (intact : m.Intact .any) (regular : m.Regular)
    (framed : m.frames ≠ []) (op : Opcode) (a b : Nat)
    (ran : Exec.perform op a b none m = .error (.failed kind) m') : m.Spared m' := by
  cases op with
  | call | invoke | superInvoke =>
    exact ((Exec.calls_leaves regular rfl _ _).of_error ran).toSpared
  | closeUpvalue =>
    by_cases empty : m.stack.size = 0
    · cases (closeTop_of_empty empty).symm.trans ran
      exact .refl m
    · cases (closeTop_eq empty).symm.trans ran
  | ret =>
    -- A return fails only if it has done nothing yet.
    obtain ⟨f, head⟩ := exists_head? framed
    rcases Exec.returnValue_cases regular head with failed | ⟨_, -, returned | ⟨v, returned⟩⟩
    · cases failed.symm.trans ran
      exact .refl m
    · cases returned.symm.trans ran
    · cases returned.symm.trans ran
  | _ => exact ((Exec.perform_leaves intact regular rfl _ _).of_error ran).toSpared

/-- A step that fails has changed no older object and no global. -/
theorem Intact.spared_of_failed (intact : m.Intact .any) (regular : m.Regular)
    (ran : Exec.step none m = .error (.failed kind) m') : m.Spared m' := by
  by_cases idle : m.frames = []
  · rw [step_of_frames_eq_nil idle] at ran
    cases ran
  cases next : m.next? with
  | none =>
    obtain ⟨_, events, eq⟩ := intact.step_of_next?_eq_none idle next
    cases eq.symm.trans ran
    exact ⟨.refl m.heap, fun _ _ => Iff.rfl⟩
  | some instruction =>
    obtain ⟨events, eq⟩ := Exec.step_eq_nextIp none next
    -- Fetching the instruction leaves the heap and the globals as they are.
    have spared : (m.fetched events).Spared m' :=
      (intact.fetched events).spared_of_perform (regular.fetched events)
        (frames_withIp_ne_nil idle _) _ _ _ (eq.symm.trans ran)
    exact ⟨spared.spares, spared.globals⟩

/-- Bringing the machine to rest closes what is open. -/
theorem Spared.conclude {c : Custody} (spared : m₀.Spared m) (intact : m.Intact c) (stop : Stop) :
    m₀.Spared (m.conclude stop).2 := by
  unfold Machine.conclude
  split
  · exact spared
  · exact spared
  · exact spared
  · split
    · exact spared
    · next backtrace _ =>
      refine ⟨spared.spares.trans ?_, ?_⟩
      · rw [← record_heap m (.failure ⟨_, backtrace⟩)]
        exact (intact.record _).spares_closeFrom 0
      · have same (m : Machine) (event : ExecutionEvent) :
            (m.record event).reset.globals = m.globals := by
          unfold reset record
          rw [closeFrom_eq]
          split <;> rfl
        rw [same]
        exact spared.globals

/-- An instruction that fails does no harm: where it has failed, and after the machine has been
brought to rest, the globals have the values that they had, and classes, instances and closed
captured variables that are still live are as they were. -/
theorem Occurs.failing_unharmed (occurs : m.Occurs)
    (ran : Exec.step none m = .error (.failed kind) m') :
    m.Unharmed m' ∧ m.Unharmed (m'.conclude (.failed kind)).2 := by
  have intact := occurs.intact
  have spared := intact.spared_of_failed occurs.regular ran
  have intact' := intact.of_stop ran
  exact ⟨spared.unharmed intact.toSound intact'.toSound,
    (spared.conclude intact' _).unharmed intact.toSound (intact'.conclude _).toSound⟩

/-- Host functions are made globals one after the other. -/
theorem Occurs.defineNatives (occurs : m.Occurs) (natives : List Native) :
    (natives.foldl defineNative m).Occurs := by
  induction natives generalizing m with
  | nil => exact occurs
  | cons native rest ih => exact ih (occurs.host (.defineNative native))

/-- A host function that does nothing. -/
def idleNative (name : String) : Native := ⟨name, fun _ _ => .nil⟩

/-- A machine with as many globals as fit, in which a script has made a class with a method. It is
about to assign a global that is not there. -/
def assigning : Machine :=
  let natives := ["a", "b", "c", "d", "e"].map idleNative
  let m := natives.foldl defineNative (start {} default .zero)
  let (name, m) := m.intern "x" []
  let code := #[Opcode.newClass.byte, 0, Opcode.constant.byte, 1, Opcode.method.byte, 0,
    Opcode.setGlobal.byte, 0]
  let script : Chunk Value := ⟨code, #[], #[.object name, .number (.ofNat 7)]⟩
  let (function, m) := m.allocate (.function (.script script)) []
  (((m.left (enter function) none).left Exec.step none).left Exec.step none).left Exec.step none

/-- The table of the globals has grown, but there is no new global in it. -/
theorem failing_unharmed_assigning :
    assigning.Occurs ∧
    Exec.step none assigning =
      .error (.failed (.undefinedVariable "x")) (assigning.left Exec.step none) ∧
    assigning.globals.slots.size = 8 ∧ (assigning.left Exec.step none).globals.slots.size = 16 ∧
    (assigning.left Exec.step none).global? "x" = none ∧
    ∃ methods, assigning.heap.methods? ⟨16⟩ = some methods ∧ methods.entries.length = 1 ∧
      ((assigning.left Exec.step none).conclude (.failed (.undefinedVariable "x"))).2.heap.methods?
        ⟨16⟩ = some methods := by
  have occurs : assigning.Occurs := by
    refine .left_step (.left_step (.left_step (.left_enter ?_ ?_) ?_) ?_) ?_
    · exact (((Occurs.start _ _ _).defineNatives _).host (.intern "x" [])).host (.function _ [])
    all_goals decide +kernel
  have fails : Exec.step none assigning =
      .error (.failed (.undefinedVariable "x")) (assigning.left Exec.step none) :=
    eq_error_of_stopped? (by decide +kernel)
  obtain ⟨unharmed, afterwards⟩ := occurs.failing_unharmed fails
  obtain ⟨methods, found⟩ : ∃ methods, assigning.heap.methods? ⟨16⟩ = some methods :=
    Option.isSome_iff_exists.mp (by decide +kernel)
  have count : (assigning.heap.methods? ⟨16⟩).map (·.entries.length) = some 1 := by decide +kernel
  rw [found] at count
  refine ⟨occurs, fails, by decide +kernel, by decide +kernel, ?_, methods, found,
    Option.some.inj count, afterwards.methods _ _ found (by decide +kernel)⟩
  rw [unharmed.globals]
  decide +kernel

end Machine

end ScriptMachine
