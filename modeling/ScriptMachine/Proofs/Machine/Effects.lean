/-
# What instructions leave alone

Most instructions take a fixed number of values off the stack, whether these
are there or not, and may put another one on it; the values below stay. If such
an instruction stops before its time, it has only taken values off. A call may
also overwrite the slot of its callee.

None of these instructions touches a captured variable or what a closure has
captured. They may make closures that have captured nothing, and a collection
may free what nothing refers to.

## Main definitions

* `Heap.Calm` — captured variables and closures are as they were
* `Machine.Shares` — so are they, and the lowest slots of the stack
* `Opcode.taken` — how many values an instruction takes off the stack
* `Exec.Takes` — an action that leaves the other values alone
* `Exec.Calls` — an action that overwrites one slot at most

## Main results

* `Takes.perform` — most instructions take what they should
* `Calls.callValue`, `Calls.invoke` — calls overwrite the slot of their callee at most
-/

import ScriptMachine.Proofs.Machine.Returning
import ScriptMachine.Proofs.Machine.Safety

namespace ScriptMachine

open Heap

/-! ## Heaps -/

/-- The other heap has come about from this one, and its captured variables and closures are as they
were, save that some closures are new and have captured nothing. -/
structure Heap.Calm (config : Config) (heap other : Heap) : Prop where
  evolves : other.Evolves config
  grown : heap.cells.size ≤ other.cells.size
  upvalue : ∀ h u, other.upvalue? h = some u → heap.upvalue? h = some u
  closure : ∀ h captured, other.captured? h = some captured →
    heap.captured? h = some captured ∨ captured = #[] ∧ heap.cells.size ≤ h.index

namespace Heap

variable {config : Config} {heap other after : Heap} {h : Handle}

theorem captured?_eq_some_iff {upvalues : Array Handle} :
    heap.captured? h = some upvalues ↔
      ∃ f reserved, heap.get? h = some (.closure f upvalues reserved) :=
  ⟨get?_of_captured?, fun ⟨_, _, found⟩ => by rw [captured?, found]⟩

namespace Calm

theorem refl (evolves : heap.Evolves config) : heap.Calm config heap :=
  ⟨evolves, Nat.le_refl _, fun _ _ found => found, fun _ _ found => .inl found⟩

theorem trans (calm : heap.Calm config other) (calm' : other.Calm config after) :
    heap.Calm config after where
  evolves := calm'.evolves
  grown := calm.grown.trans calm'.grown
  upvalue h u found := calm.upvalue h u (calm'.upvalue h u found)
  closure h captured found := by
    rcases calm'.closure h captured found with found | ⟨nothing, new⟩
    · exact calm.closure h captured found
    · exact .inr ⟨nothing, calm.grown.trans new⟩

/-- Where every object was there before, nothing has been captured. -/
theorem of_get? (evolves : other.Evolves config) (grown : heap.cells.size ≤ other.cells.size)
    (old : ∀ h object, other.get? h = some object → heap.get? h = some object) :
    heap.Calm config other where
  evolves := evolves
  grown := grown
  upvalue h u found := upvalue?_eq_some_iff.mpr (old h _ (get?_of_upvalue? found))
  closure h captured found := by
    obtain ⟨f, reserved, found⟩ := get?_of_captured? found
    exact .inl (captured?_eq_some_iff.mpr ⟨f, reserved, old h _ found⟩)

theorem collect (evolves : heap.Evolves config) (roots : List Handle) :
    heap.Calm config (heap.collect roots) :=
  of_get? (evolves.collect roots) (size_cells_collect evolves.arises.clean roots).ge
    fun _ _ found => ((get?_collect_iff evolves.arises.clean).mp found).1

/-- The new object is not a captured variable, and if it is a closure, it has captured nothing. -/
theorem allocated {object : Object} {roots : List Handle} (evolves : after.Evolves config)
    (allocated : heap.Allocated object roots h after) (other : object.kind ≠ .upvalue)
    (nothing : ∀ f captured reserved, object = .closure f captured reserved → captured = #[]) :
    heap.Calm config after := by
  refine ⟨evolves, allocated.grown, fun k u found => ?_, fun k captured found => ?_⟩
  · have found := get?_of_upvalue? found
    refine upvalue?_eq_some_iff.mpr (allocated.get?_old (fun eq => other ?_) found)
    rw [eq, allocated.get?] at found
    rw [Option.some.inj found, Object.kind]
  · obtain ⟨f, reserved, found⟩ := get?_of_captured? found
    by_cases eq : k = h
    · rw [eq, allocated.get?] at found
      rw [eq, allocated.fresh]
      exact .inr ⟨nothing f captured reserved (Option.some.inj found), Nat.le_refl _⟩
    · exact .inl (captured?_eq_some_iff.mpr ⟨f, reserved, allocated.get?_old eq found⟩)

theorem allocate (evolves : heap.Evolves config) {object : Object} (roots : List Handle)
    (string : object.kind ≠ .string) (upvalue : object.kind ≠ .upvalue)
    (nothing : ∀ f captured reserved, object = .closure f captured reserved → captured = #[]) :
    heap.Calm config (heap.allocate object roots).2 :=
  allocated (evolves.allocate object roots string)
    (allocated_allocate evolves.arises.clean object roots) upvalue nothing

theorem intern (evolves : heap.Evolves config) (text : String) (roots : List Handle) :
    heap.Calm config (heap.intern text roots).2 := by
  have evolves' := evolves.intern text roots
  rcases interned_intern evolves.canonical evolves.arises.clean text roots with
    ⟨-, same⟩ | ⟨-, allocated⟩
  · rw [same]
    exact refl evolves
  · exact .allocated evolves' allocated nofun nofun

/-- Changing an object that is no captured variable, nor a closure, nor a string. -/
theorem modify (evolves : heap.Evolves config) (h : Handle) {f : Object → Object}
    (other : ∀ object, f object = object ∨ object.kind = (f object).kind ∧
      object.kind ≠ .string ∧ object.kind ≠ .upvalue ∧ object.kind ≠ .closure) :
    heap.Calm config (heap.modify h f) := by
  have evolves' : (heap.modify h f).Evolves config := by
    refine evolves.modify h f fun object _ => (other object).imp_right fun ⟨same, string, _⟩ => ?_
    exact ⟨string, same ▸ string⟩
  -- What has become a captured variable or a closure was the same before.
  have old {k : Handle} {object : Object} (found : (heap.modify h f).get? k = some object)
      (special : object.kind = .upvalue ∨ object.kind = .closure) :
      heap.get? k = some object := by
    rw [get?_modify] at found
    split at found
    · obtain ⟨before, live, rfl⟩ := Option.map_eq_some_iff.mp found
      rcases other before with same | ⟨same, -, upvalue, closure⟩
      · rw [same, live]
      · rcases special with eq | eq
        · exact absurd (same.trans eq) upvalue
        · exact absurd (same.trans eq) closure
    · exact found
  refine ⟨evolves', (size_cells_modify heap h f).ge, fun k u found => ?_, fun k us found => ?_⟩
  · exact upvalue?_eq_some_iff.mpr (old (get?_of_upvalue? found) (.inl rfl))
  · obtain ⟨f', reserved, found⟩ := get?_of_captured? found
    exact .inl (captured?_eq_some_iff.mpr ⟨f', reserved, old found (.inr rfl)⟩)

theorem recharge (evolves : heap.Evolves config) (h : Handle) :
    heap.Calm config (heap.recharge h) :=
  of_get? (evolves.recharge h) (size_cells_recharge heap h).ge
    fun k _ found => (get?_recharge heap h k).symm.trans found

theorem setFields (evolves : heap.Evolves config) (h : Handle) (fields : Table) :
    heap.Calm config ((heap.setFields h fields).recharge h) := by
  have changed : heap.Calm config (heap.setFields h fields) := by
    refine modify evolves h fun object => ?_
    cases object <;> first | exact .inl rfl | exact .inr ⟨rfl, nofun, nofun, nofun⟩
  exact changed.trans (recharge changed.evolves h)

theorem setMethods (evolves : heap.Evolves config) (h : Handle) (methods : Table) :
    heap.Calm config ((heap.setMethods h methods).recharge h) := by
  have changed : heap.Calm config (heap.setMethods h methods) := by
    refine modify evolves h fun object => ?_
    cases object <;> first | exact .inl rfl | exact .inr ⟨rfl, nofun, nofun, nofun⟩
  exact changed.trans (recharge changed.evolves h)

end Calm

end Heap

/-! ## Machines -/

namespace Machine

/-- Captured variables and closures are as they were, and so are the lowest slots of the stack. -/
structure Shares (m₀ m : Machine) (count : Nat) : Prop where
  calm : m₀.heap.Calm m₀.config m.heap
  before : count ≤ m₀.stack.size
  after : count ≤ m.stack.size
  same : ∀ j < count, m.stack[j]? = m₀.stack[j]?

/-- Captured variables and closures are as they were, and so are the slots of the stack that are
left, but for one. -/
structure Overwrites (m₀ m : Machine) (slot : Nat) : Prop where
  calm : m₀.heap.Calm m₀.config m.heap
  le : m.stack.size ≤ m₀.stack.size
  same : ∀ j < m.stack.size, j ≠ slot → m.stack[j]? = m₀.stack[j]?

variable {m₀ m m' : Machine} {n k slot : Nat}

theorem Shares.refl (regular : m.Regular) : m.Shares m m.stack.size :=
  ⟨.refl regular.heap, Nat.le_refl _, Nat.le_refl _, fun _ _ => rfl⟩

theorem Shares.push (shares : m₀.Shares m n) (v : Value) :
    m₀.Shares { m with stack := m.stack.push v } n := by
  have after := shares.after
  refine ⟨shares.calm, shares.before, ?_, fun j lt => ?_⟩
  · rw [Array.size_push]
    omega
  · rw [Array.getElem?_push_lt (by omega), ← shares.same j lt, Array.getElem?_eq_getElem]

theorem Shares.pop (shares : m₀.Shares m n) (size : m.stack.size = n) :
    m₀.Shares { m with stack := m.stack.pop } (n - 1) := by
  refine ⟨shares.calm, (Nat.sub_le _ _).trans shares.before, ?_, fun j lt => ?_⟩
  · rw [Array.size_pop, size]
  · rw [Array.getElem?_pop, if_pos (by omega), shares.same j (by omega)]

theorem Shares.withHeap (shares : m₀.Shares m n) {heap : Heap}
    (calm : m.heap.Calm m₀.config heap) : m₀.Shares { m with heap } n :=
  { shares with calm := shares.calm.trans calm }

theorem Shares.congr (shares : m₀.Shares m n) (heap : m'.heap = m.heap)
    (stack : m'.stack = m.stack) : m₀.Shares m' n :=
  ⟨heap ▸ shares.calm, shares.before, stack ▸ shares.after, stack ▸ shares.same⟩

theorem Shares.overwrites (shares : m₀.Shares m m.stack.size) : m₀.Overwrites m slot :=
  ⟨shares.calm, shares.before, fun j lt _ => shares.same j lt⟩

theorem Overwrites.withHeap (overwrites : m₀.Overwrites m slot) {heap : Heap}
    (calm : m.heap.Calm m₀.config heap) : m₀.Overwrites { m with heap } slot :=
  { overwrites with calm := overwrites.calm.trans calm }

theorem Overwrites.congr (overwrites : m₀.Overwrites m slot) (heap : m'.heap = m.heap)
    (stack : m'.stack = m.stack) : m₀.Overwrites m' slot :=
  ⟨heap ▸ overwrites.calm, stack ▸ overwrites.le, stack ▸ overwrites.same⟩

end Machine

namespace Exec

open Machine

variable {α β : Type} {m₀ m : Machine} {x : Exec α} {f : α → Exec β} {n k slot count : Nat}

/-! ## Outcomes -/

/-- From this machine the action leads to what is asked for, whether it goes on or stops. -/
def Leaves (x : Exec α) (m : Machine) (post : α → Machine → Prop) (halt : Machine → Prop) : Prop :=
  match x none m with
  | .ok a m' => post a m'
  | .error _ m' => halt m'

namespace Leaves

variable {post : α → Machine → Prop} {next : β → Machine → Prop} {halt : Machine → Prop}

theorem bind (first : x.Leaves m (fun a m' => (f a).Leaves m' next halt) halt) :
    (x >>= f).Leaves m next halt := by
  unfold Leaves at first ⊢
  cases ran : x none m with
  | ok a m' =>
    rw [ran] at first
    rw [bind_eq ran]
    exact first
  | error stop m' =>
    rw [ran] at first
    rw [bind_error ran]
    exact first

/-- An action that changes nothing leaves what holds already. -/
theorem of_reads (reads : x.Reads) (holds : ∀ a, post a m) (halted : halt m) :
    x.Leaves m post halt := by
  have same := reads none m
  unfold Leaves
  cases ran : x none m with
  | ok a m' =>
    rw [ran] at same
    obtain rfl := same
    exact holds a
  | error stop m' =>
    rw [ran] at same
    obtain rfl := same
    exact halted

theorem read (reads : x.Reads) (rest : ∀ a, (f a).Leaves m next halt) (halted : halt m) :
    (x >>= f).Leaves m next halt := bind (of_reads reads rest halted)

theorem get_bind {f : Machine → Exec β} (rest : (f m).Leaves m next halt) :
    (MonadState.get >>= f).Leaves m next halt := rest

theorem mono {post' : α → Machine → Prop} {halt' : Machine → Prop} (leaves : x.Leaves m post halt)
    (weaker : ∀ a m', post a m' → post' a m') (weaker' : ∀ m', halt m' → halt' m') :
    x.Leaves m post' halt' := by
  unfold Leaves at leaves ⊢
  split at leaves
  · exact weaker _ _ leaves
  · exact weaker' _ leaves

theorem of_ok {a : α} {m' : Machine} (leaves : x.Leaves m post halt) (ran : x none m = .ok a m') :
    post a m' := by
  rw [Leaves, ran] at leaves
  exact leaves

theorem of_error {stop : Stop} {m' : Machine} (leaves : x.Leaves m post halt)
    (ran : x none m = .error stop m') : halt m' := by
  rw [Leaves, ran] at leaves
  exact leaves

theorem ite {p : Prop} [Decidable p] {y : Exec α} (yes : p → x.Leaves m post halt)
    (no : ¬ p → y.Leaves m post halt) : (if p then x else y).Leaves m post halt := by
  split
  next holds => exact yes holds
  next fails => exact no fails

theorem discard {post : Unit → Machine → Prop} (first : x.Leaves m (fun _ => post ⟨⟩) halt) :
    (Functor.discard x).Leaves m post halt := bind (f := fun _ => Pure.pure ()) first

theorem pop {post : Value → Machine → Prop}
    (holds : ∀ v, post v { m with stack := m.stack.pop }) (halted : halt m) :
    Exec.pop.Leaves m post halt := bind (of_reads (.peek 0) holds halted)

theorem push {post : Unit → Machine → Prop} {v : Value}
    (holds : post ⟨⟩ { m with stack := m.stack.push v }) (halted : halt m) :
    (Exec.push v).Leaves m post halt := get_bind (ite (fun _ => halted) fun _ => holds)

theorem calleeSlot {post : Nat → Machine → Prop}
    (holds : count < m.stack.size → post (m.stack.size - 1 - count) m) (halted : halt m) :
    (Exec.calleeSlot count).Leaves m post halt := get_bind (ite holds fun _ => halted)

end Leaves

/-! ## Actions that touch neither the heap nor the stack -/

/-- Whether it stops or not, the action leaves the heap and the stack as they were. -/
def Quiet (x : Exec α) : Prop :=
  ∀ m, x.Leaves m (fun _ m' => m'.heap = m.heap ∧ m'.stack = m.stack)
    fun m' => m'.heap = m.heap ∧ m'.stack = m.stack

namespace Quiet

theorem of_reads (reads : x.Reads) : x.Quiet :=
  fun _ => .of_reads reads (fun _ => ⟨rfl, rfl⟩) ⟨rfl, rfl⟩

theorem bind (first : x.Quiet) (next : ∀ a, (f a).Quiet) : (x >>= f).Quiet := by
  refine fun m => .bind ((first m).mono (fun a m' ⟨heap, stack⟩ => ?_) fun _ same => same)
  exact (next a m').mono (fun _ _ same => ⟨same.1.trans heap, same.2.trans stack⟩)
    fun _ same => ⟨same.1.trans heap, same.2.trans stack⟩

theorem read (reads : x.Reads) (next : ∀ a, (f a).Quiet) : (x >>= f).Quiet :=
  bind (of_reads reads) next

theorem ite {p : Prop} [Decidable p] {y : Exec α} (yes : x.Quiet) (no : y.Quiet) :
    (if p then x else y).Quiet := by
  split
  · exact yes
  · exact no

theorem modify {g : Machine → Machine} (heap : ∀ m, (g m).heap = m.heap)
    (stack : ∀ m, (g m).stack = m.stack) : (modify g : Exec Unit).Quiet :=
  fun m => ⟨heap m, stack m⟩

theorem setIp (ip : Nat) : (Exec.setIp ip).Quiet := modify (fun _ => rfl) fun _ => rfl

/-- A test that stops with an error, and what comes after it. -/
theorem guard {p : Prop} [Decidable p] {kind : ErrorKind} {f : Unit → Exec Unit}
    (rest : (f ⟨⟩).Quiet) : (if p then Exec.fail kind >>= f else f ⟨⟩).Quiet :=
  ite (fun _ => ⟨rfl, rfl⟩) rest

theorem discard (first : x.Quiet) : (Functor.discard x).Quiet :=
  bind (f := fun _ => Pure.pure ()) first fun _ => of_reads (.pure _)

theorem call (h : Handle) (count : Nat) : (Exec.call h count).Quiet :=
  read .get fun _ => read (.orFail _ _) fun _ => read .get fun _ => read (.orBroken _ _) fun _ =>
    guard (read .get fun _ => guard (read (.calleeSlot _) fun _ =>
      modify (fun _ => rfl) fun _ => rfl))

theorem invokeFrom (cls : Handle) (key : Key) (count : Nat) :
    (Exec.invokeFrom cls key count).Quiet := by
  refine read (.method? _ _) fun _ => ?_
  split
  · exact call _ _
  · exact of_reads (.undefinedProperty _)

theorem storeGlobal (key : Key) (v : Value) : (Exec.storeGlobal key v).Quiet :=
  fun _ => ⟨rfl, rfl⟩

theorem setGlobal (key : Key) : (Exec.setGlobal key).Quiet :=
  read (.peek _) fun _ => bind (storeGlobal _ _) fun _ =>
    ite (bind (modify (fun _ => rfl) fun _ => rfl) fun _ =>
      of_reads (.bind (.textOf _) fun _ => .fail _)) (of_reads (.pure _))

theorem jump (distance : Nat) : (Exec.jump distance).Quiet := read .frame fun _ => setIp _

theorem jumpBack (distance : Nat) : (Exec.jumpBack distance).Quiet :=
  read .frame fun _ => guard (setIp _)

end Quiet

/-! ## Taking values off the stack -/

/-- From a machine that shares all of its stack with an earlier one, namely `n` slots, the action
leads to one that shares `k` slots with it. If it stops, it leaves no other slots. -/
def Takes (m₀ : Machine) (n k : Nat) (x : Exec α) : Prop :=
  ∀ m, m.stack.size = n → m₀.Shares m n →
    x.Leaves m (fun _ m' => m₀.Shares m' k) fun m' => m₀.Shares m' m'.stack.size

namespace Takes

theorem bind_quiet (first : x.Quiet) (next : ∀ a, Takes m₀ n k (f a)) :
    Takes m₀ n k (x >>= f) := by
  intro m size shares
  refine .bind ((first m).mono (fun a m' ⟨heap, stack⟩ => ?_) fun m' ⟨heap, stack⟩ => ?_)
  · exact next a m' (stack ▸ size) (shares.congr heap stack)
  · rw [stack, size]
    exact shares.congr heap stack

theorem read (reads : x.Reads) (next : ∀ a, Takes m₀ n k (f a)) : Takes m₀ n k (x >>= f) :=
  bind_quiet (.of_reads reads) next

theorem quiet (first : x.Quiet) : Takes m₀ n n x := by
  intro m size shares
  refine (first m).mono (fun a m' ⟨heap, stack⟩ => shares.congr heap stack)
    fun m' ⟨heap, stack⟩ => ?_
  rw [stack, size]
  exact shares.congr heap stack

theorem of_reads (reads : x.Reads) : Takes m₀ n n x := quiet (.of_reads reads)

theorem fail (kind : ErrorKind) : Takes m₀ n k (Exec.fail kind : Exec α) := by
  rintro m rfl shares
  exact shares

/-- A test that stops with an error, and what comes after it. -/
theorem guard {p : Prop} [Decidable p] {kind : ErrorKind} {f : Unit → Exec Unit}
    (rest : Takes m₀ n k (f ⟨⟩)) : Takes m₀ n k (if p then Exec.fail kind >>= f else f ⟨⟩) := by
  split
  · exact read (.fail _) fun _ => rest
  · exact rest

theorem undefinedProperty (key : Key) : Takes m₀ n k (Exec.undefinedProperty key : Exec α) :=
  read (.textOf _) fun _ => fail _

theorem push (v : Value) : Takes m₀ n n (Exec.push v) := by
  rintro m rfl shares
  exact .push (shares.push v) shares

theorem bind_pop {f : Value → Exec β} (next : ∀ v, Takes m₀ (n - 1) k (f v)) :
    Takes m₀ n k (Exec.pop >>= f) := by
  intro m size shares
  refine .bind (.pop (fun v => next v _ ?_ (shares.pop size)) (size ▸ shares))
  rw [Array.size_pop, size]

theorem bind_discard_pop {f : Unit → Exec β} (next : Takes m₀ (n - 1) k (f ⟨⟩)) :
    Takes m₀ n k (Functor.discard Exec.pop >>= f) := by
  intro m size shares
  refine .bind (.discard (.pop (fun _ => next _ ?_ (shares.pop size)) (size ▸ shares)))
  rw [Array.size_pop, size]

theorem discard_pop : Takes m₀ n (n - 1) (Functor.discard Exec.pop) :=
  fun _ size shares => .discard (.pop (fun _ => shares.pop size) (size ▸ shares))

theorem bind_modifyHeap {g : Heap → Heap} {f : Unit → Exec β}
    (calm : ∀ {heap : Heap}, heap.Evolves m₀.config → heap.Calm m₀.config (g heap))
    (next : Takes m₀ n k (f ⟨⟩)) : Takes m₀ n k (Exec.modifyHeap g >>= f) :=
  fun _ size shares => .bind (next _ size (shares.withHeap (calm shares.calm.evolves)))

theorem bind_allocate {object : Object} {f : Handle → Exec β} (string : object.kind ≠ .string)
    (upvalue : object.kind ≠ .upvalue)
    (nothing : ∀ f captured reserved, object = .closure f captured reserved → captured = #[])
    (next : ∀ h, Takes m₀ n k (f h)) : Takes m₀ n k (Exec.allocate object >>= f) := by
  intro _ size shares
  exact .bind (.bind (next _ _ size (shares.withHeap
    (.allocate shares.calm.evolves _ string upvalue nothing))))

theorem bind_intern {text : String} {f : Handle → Exec β} (next : ∀ h, Takes m₀ n k (f h)) :
    Takes m₀ n k (Exec.intern text >>= f) := by
  intro _ size shares
  exact .bind (.bind (next _ _ size (shares.withHeap (.intern shares.calm.evolves _ _))))

theorem replaceTop (v : Value) :
    Takes m₀ n (n - 1) (do Functor.discard Exec.pop; Exec.push v) := bind_discard_pop (push v)

theorem replaceTwo (v : Value) :
    Takes m₀ n (n - 2) (do Functor.discard Exec.pop; Functor.discard Exec.pop; Exec.push v) :=
  bind_discard_pop (replaceTop v)

theorem bind_popClass {f : Handle → Exec β} (next : ∀ h, Takes m₀ (n - 1) k (f h)) :
    Takes m₀ n k (Exec.popClass >>= f) := by
  rintro m rfl shares
  have popped := shares.pop rfl
  have halted : m₀.Shares { m with stack := m.stack.pop } m.stack.pop.size := by
    rwa [Array.size_pop]
  exact .bind (.bind (.pop (fun _ => .read (.class? _) (fun _ => .read (.orFail _ _)
    (fun ⟨h, _⟩ => next h _ Array.size_pop popped) halted) halted) shares))

/-! ## Instructions -/

theorem bindMethod (cls : Handle) (key : Key) : Takes m₀ n (n - 1) (Exec.bindMethod cls key) := by
  refine read (.method? _ _) fun _ => ?_
  split
  · exact undefinedProperty _
  · exact read (.peek _) fun _ => bind_allocate nofun nofun nofun fun _ => replaceTop _

theorem getProperty (key : Key) : Takes m₀ n (n - 1) (Exec.getProperty key) := by
  refine read (.peek _) fun _ => read (.instance? _) fun _ => read (.orFail _ _) ?_
  rintro ⟨_, _, fields⟩
  simp only
  split
  · exact replaceTop _
  · exact bindMethod _ _

theorem setProperty (key : Key) : Takes m₀ n (n - 2) (Exec.setProperty key) :=
  read (.peek _) fun _ => read (.peek _) fun _ => read (.instance? _) fun _ =>
    read (.orFail _ _) fun ⟨_, _, _⟩ =>
      bind_modifyHeap (fun evolves => .setFields evolves _ _) (replaceTwo _)

theorem inherit : Takes m₀ n (n - 1) Exec.inherit :=
  read (.peek _) fun _ => read (.peek _) fun _ => read (.class? _) fun _ =>
    read (.orFail _ _) fun ⟨_, _⟩ => read (.class? _) fun _ => read (.orMalformed _ _) fun ⟨_, _⟩ =>
      bind_modifyHeap (fun evolves => .setMethods evolves _ _) discard_pop

theorem defineMethod (key : Key) : Takes m₀ n (n - 1) (Exec.defineMethod key) :=
  read (.peek _) fun _ => read (.peek _) fun _ => read (.class? _) fun _ =>
    read (.orMalformed _ _) fun ⟨_, _⟩ =>
      bind_modifyHeap (fun evolves => .setMethods evolves _ _) discard_pop

theorem binary (op : Number → Number → Value) : Takes m₀ n (n - 2) (Exec.binary op) := by
  refine read (.peek _) fun _ => read (.peek _) fun _ => ?_
  split
  · exact replaceTwo _
  · exact fail _

theorem join (a b : Value) : Takes m₀ n (n - 2) (Exec.join a b) := by
  refine read .get fun _ => guard ?_
  split
  · exact bind_intern fun _ => replaceTwo _
  · exact fail _

theorem add : Takes m₀ n (n - 2) Exec.add := by
  refine read (.peek _) fun _ => read (.peek _) fun _ => ?_
  split
  · exact replaceTwo _
  · exact join _ _

theorem negate : Takes m₀ n (n - 1) Exec.negate := by
  refine read (.peek _) fun _ => ?_
  split
  · exact replaceTop _
  · exact fail _

theorem print : Takes m₀ n (n - 1) Exec.print :=
  bind_pop fun _ => quiet fun _ =>
    .get_bind (.bind (.ite (fun _ => ⟨rfl, rfl⟩) fun _ => ⟨rfl, rfl⟩))

theorem getGlobal (key : Key) : Takes m₀ n n (Exec.getGlobal key) := by
  refine read .get fun _ => ?_
  split
  · exact push _
  · exact of_reads (.bind (.textOf _) fun _ => .fail _)

theorem defineGlobal (key : Key) : Takes m₀ n (n - 1) (Exec.defineGlobal key) :=
  read (.peek _) fun _ => bind_quiet (.discard (.storeGlobal _ _)) fun _ => discard_pop

end Takes

end Exec

/-! ## All instructions but some -/

/-- How many values an instruction takes off the stack. Calls and returns take as many as they
find. -/
def Opcode.taken : Opcode → Nat
  | .pop | .defineGlobal | .getProperty | .not | .negate | .print | .superInvoke | .closeUpvalue
  | .inherit | .method => 1
  | .setProperty | .getSuper | .equal | .greater | .less | .add | .subtract | .multiply
  | .divide => 2
  | _ => 0

/-- The instruction stores no value in a slot, and has nothing to do with captured variables. -/
def Opcode.isPlain : Opcode → Bool
  | .setLocal | .setUpvalue | .call | .invoke | .closure | .closeUpvalue | .ret => false
  | _ => true

namespace Exec

variable {m₀ m : Machine} {n slot count : Nat}

theorem Takes.perform {op : Opcode} (plain : op.isPlain) (a b : Nat) :
    Takes m₀ n (n - op.taken) (Exec.perform op a b) := by
  cases op with
  | constant | longConstant => exact read (.constant _) fun _ => push _
  | pushNil | pushTrue | pushFalse => exact push _
  | pop => exact discard_pop
  | getLocal => exact read (.getLocal _) fun _ => push _
  | getGlobal => exact read (.name _) fun _ => getGlobal _
  | defineGlobal => exact read (.name _) fun _ => defineGlobal _
  | setGlobal => exact read (.name _) fun _ => quiet (.setGlobal _)
  | getUpvalue => exact read (.getUpvalue _) fun _ => push _
  | getProperty => exact read (.name _) fun _ => getProperty _
  | setProperty => exact read (.name _) fun _ => setProperty _
  | getSuper => exact read (.name _) fun _ => bind_popClass fun _ => bindMethod _ _
  | equal => exact bind_pop fun _ => bind_pop fun _ => push _
  | greater | less | subtract | multiply | divide => exact binary _
  | add => exact add
  | not => exact bind_pop fun _ => push _
  | negate => exact negate
  | print => exact print
  | jump => exact quiet (.jump _)
  | jumpIfFalse => exact read (.peek _) fun _ => quiet (.ite (.jump _) (.of_reads (.pure _)))
  | loop => exact quiet (.jumpBack _)
  | superInvoke => exact read (.name _) fun _ => bind_popClass fun _ => quiet (.invokeFrom _ _ _)
  | newClass =>
    exact read (.name _) fun _ => bind_allocate nofun nofun nofun fun _ => push _
  | inherit => exact inherit
  | method => exact read (.name _) fun _ => defineMethod _
  | setLocal | setUpvalue | call | invoke | closure | closeUpvalue | ret => cases plain

/-! ## Calls -/

/-- However the action ends, it has overwritten no slot that is left but this one. -/
def Calls (m₀ : Machine) (slot : Nat) (x : Exec Unit) (m : Machine) : Prop :=
  x.Leaves m (fun _ m' => m₀.Overwrites m' slot) fun m' => m₀.Overwrites m' slot

namespace Calls

variable {x : Exec Unit} {v : Value}

theorem quiet (first : x.Quiet) (overwrites : m₀.Overwrites m slot) : Calls m₀ slot x m :=
  (first m).mono (fun _ _ ⟨heap, stack⟩ => overwrites.congr heap stack)
    fun _ ⟨heap, stack⟩ => overwrites.congr heap stack

theorem setSlot (overwrites : m₀.Overwrites m slot) :
    (Exec.setSlot slot v).Leaves m
      (fun _ m' => m₀.Overwrites m' slot ∧ m'.stack.size = m.stack.size)
      fun m' => m₀.Overwrites m' slot := by
  refine .get_bind (.ite (fun _ => ⟨⟨overwrites.calm, ?_, fun j lt ne => ?_⟩, ?_⟩)
    fun _ => overwrites)
  · exact (Array.size_setIfInBounds ..).le.trans overwrites.le
  · rw [Array.size_setIfInBounds] at lt
    rw [Array.getElem?_setIfInBounds_ne ne.symm, overwrites.same j lt ne]
  · exact Array.size_setIfInBounds ..

theorem construct (cls : Handle) (methods : Table) (overwrites : m₀.Overwrites m slot) :
    Calls m₀ slot (Exec.construct cls methods slot count) m := by
  refine .get_bind (.bind (.bind (.bind (.bind ?_))))
  have calm : m.heap.Calm m₀.config (m.allocate (.inst cls .empty) []).2.heap :=
    .allocate overwrites.calm.evolves _ nofun nofun nofun
  have made := overwrites.withHeap calm
  refine (setSlot made).mono (fun _ m' ⟨overwrites, _⟩ => ?_) fun _ overwrites => overwrites
  split
  · exact quiet (.call _ _) overwrites
  · exact overwrites
  · exact .ite (fun _ => overwrites) fun _ => overwrites

/-- The arguments make way for the result of a host function. -/
theorem replaceFrom (overwrites : m₀.Overwrites m slot) (inside : slot < m.stack.size) (v : Value) :
    Calls m₀ slot (do Exec.truncate slot; Exec.push v) m := by
  have size : (m.stack.take slot).size = slot := by
    rw [Array.take_eq_extract, Array.size_extract]
    omega
  have below {j : Nat} (lt : j < slot) : (m.stack.take slot)[j]? = m₀.stack[j]? := by
    rw [Array.take_eq_extract, Array.getElem?_extract, if_pos (by omega), Nat.zero_add,
      overwrites.same j (by omega) (by omega)]
  have le := overwrites.le
  refine .bind (.push ⟨overwrites.calm, ?_, fun j lt ne => ?_⟩
    ⟨overwrites.calm, ?_, fun j lt _ => below (size ▸ lt)⟩)
  · change ((m.stack.take slot).push v).size ≤ _
    rw [Array.size_push, size]
    omega
  · change j < ((m.stack.take slot).push v).size at lt
    change ((m.stack.take slot).push v)[j]? = _
    rw [Array.size_push, size] at lt
    rw [Array.getElem?_push, if_neg (by omega), below (by omega)]
  · change (m.stack.take slot).size ≤ _
    omega

theorem callValue (overwrites : m₀.Overwrites m slot) (at_ : m.stack.size - 1 - count = slot)
    (v : Value) : Calls m₀ slot (Exec.callValue v count) m := by
  refine .read (.orFail _ _) (fun h => .bind (.calleeSlot (fun inside => .get_bind ?_) overwrites))
    overwrites
  rw [at_]
  split
  · exact .bind ((setSlot overwrites).mono (fun _ _ ⟨overwrites, _⟩ =>
      quiet (.call _ _) overwrites) fun _ overwrites => overwrites)
  · exact construct _ _ overwrites
  · exact quiet (.call _ _) overwrites
  · exact .read (.valuesAbove _) (fun _ => .get_bind (replaceFrom overwrites (by omega) _))
      overwrites
  · exact overwrites

theorem invoke (overwrites : m₀.Overwrites m slot) (at_ : m.stack.size - 1 - count = slot)
    (key : Key) : Calls m₀ slot (Exec.invoke key count) m := by
  refine .read (.peek _) (fun _ => .read (.instance? _) (fun _ => .read (.orFail _ _) ?_ overwrites)
    overwrites) overwrites
  rintro ⟨_, _, fields⟩
  simp only
  split
  · refine .bind (.calleeSlot (fun _ => ?_) overwrites)
    rw [at_]
    exact .bind ((setSlot overwrites).mono (fun _ m' ⟨overwrites, size⟩ =>
      callValue overwrites (by rw [size, at_]) _) fun _ overwrites => overwrites)
  · exact quiet (.invokeFrom _ _ _) overwrites

end Calls

end Exec

end ScriptMachine
