/-
# Instructions keep the machine intact

Every instruction leaves an intact machine with a frame, or stops in one, and
breaks no promise. Handles that an instruction holds while it allocates are
kept by the stack, by a frame or by the new object; the laws of actions ask for
this wherever such a handle is used afterwards.

The one thing that an instruction takes from outside is the result of a host
function. Its handle has to be as the custody says.

## Main definitions

* `Machine.callee?`, `Machine.nextCallee?` — the value that an instruction calls
* `Machine.given?` — what the host function gives that is called next, if any
* `Machine.Honest` — this is as promised

## Main results

* `Ensures.perform`, `Ensures.step` — what an instruction and a step ensure
-/

import ScriptMachine.Proofs.Machine.Actions

namespace ScriptMachine

open Heap

namespace Machine

/-- The value that an instruction calls from here, and the number of arguments. -/
def callee? (m : Machine) (op : Opcode) (a b : Nat) : Option (Value × Nat) :=
  match op with
  | .call => m.stack[m.stack.size - 1 - a]?.map (·, a)
  | .invoke => do
    let key ← m.name? a
    let receiver ← m.stack[m.stack.size - 1 - b]?
    let (_, fields) ← m.heap.instance? (← receiver.handle?)
    return (← fields.get? key, b)
  | _ => none

theorem callee?_withIp (m : Machine) (ip : Nat) (op : Opcode) (a b : Nat) :
    (m.withIp ip).callee? op a b = m.callee? op a b := by
  cases op <;> simp only [callee?, name?_withIp] <;> rfl

/-- The value that the next instruction calls, and the number of arguments. -/
def nextCallee? (m : Machine) : Option (Value × Nat) := do
  let instruction ← m.next?
  m.callee? instruction.opcode (instruction.operands.getD 0 0) (instruction.operands.getD 1 0)

/-- The value is a host function. -/
def IsNative (m : Machine) (v : Value) (native : Native) : Prop :=
  ∃ h, v.handle? = some h ∧ m.heap.get? h = some (.native native)

/-- What a host function gives for the top values of the stack. -/
def answer (m : Machine) (native : Native) (count : Nat) : Value :=
  native.apply m.uptime (m.stack.extract (m.stack.size - count) m.stack.size)

/-- If a host function is called with these arguments, its result is as promised. -/
def Answers (c : Custody) (m : Machine) (callee : Value) (count : Nat) : Prop :=
  ∀ native, m.IsNative callee native → (m.answer native count).Held c m.heap

/-- The result of the host function that the next instruction calls, if any, is as promised. -/
def Honest (c : Custody) (m : Machine) : Prop :=
  ∀ callee count, m.nextCallee? = some (callee, count) → m.Answers c callee count

/-- Without a promise there is nothing to keep. -/
theorem honest_any (m : Machine) : m.Honest .any := fun _ _ _ _ _ _ _ => trivial

theorem honest_of_nextCallee? {c : Custody} {m : Machine} (none : m.nextCallee? = none) :
    m.Honest c := by
  intro callee count called
  rw [none] at called
  cases called

/-- What the next instruction is given by the host function that it calls, if it calls one. -/
def given? (m : Machine) : Option Value := do
  let (callee, count) ← m.nextCallee?
  match m.heap.get? (← callee.handle?) with
  | some (.native native) => some (m.answer native count)
  | _ => none

theorem given?_eq_some_iff {m : Machine} {v : Value} :
    m.given? = some v ↔ ∃ callee count native,
      m.nextCallee? = some (callee, count) ∧ m.IsNative callee native ∧
        m.answer native count = v := by
  constructor
  · intro given
    obtain ⟨⟨callee, count⟩, next, given⟩ := Option.bind_eq_some_iff.mp given
    obtain ⟨h, handle, given⟩ := Option.bind_eq_some_iff.mp given
    split at given
    next native found =>
      exact ⟨callee, count, native, next, ⟨h, handle, found⟩, Option.some.inj given⟩
    next => cases given
  · rintro ⟨callee, count, native, next, ⟨h, handle, found⟩, rfl⟩
    simp [given?, next, handle, found]

theorem honest_iff {c : Custody} {m : Machine} :
    m.Honest c ↔ ∀ v, m.given? = some v → v.Held c m.heap := by
  constructor
  · intro honest v given
    obtain ⟨callee, count, native, next, called, rfl⟩ := given?_eq_some_iff.mp given
    exact honest callee count next native called
  · intro held callee count next native called
    exact held _ (given?_eq_some_iff.mpr ⟨callee, count, native, next, called, rfl⟩)

instance (m : Machine) : Decidable (m.Honest .live) :=
  decidable_of_iff (((m.given?.bind Value.handle?).all m.heap.contains) = true) (by
    rw [honest_iff, Option.all_eq_true]
    constructor
    · intro live v given h handle
      exact live h (Option.bind_eq_some_iff.mpr ⟨v, given, handle⟩)
    · intro held h given
      obtain ⟨v, given, handle⟩ := Option.bind_eq_some_iff.mp given
      exact held v given h handle)

end Machine

namespace Exec

variable {c : Custody} {watch : Option Handle} {m : Machine} {v : Value} {h cls : Handle}
  {key : Key} {slot count : Nat}

/-! ## Following a step -/

section

variable {α β : Type} {f : Frame}

theorem orBroken_eq {o : Option α} {a : α} (eq : o = some a) (fault : Fault) :
    orBroken fault o watch m = .ok a m := by
  rw [eq]
  rfl

theorem frame_eq (head : m.frames.head? = some f) : frame watch m = .ok f m :=
  orBroken_eq head .noFrame

theorem function_eq {function : Function} (head : m.frames.head? = some f)
    (found : m.heap.function? f.function = some function) :
    Exec.function watch m = .ok function m :=
  (bind_eq (frame_eq head) _).trans (orBroken_eq found .lostFunction)

theorem function_of_lost (head : m.frames.head? = some f)
    (lost : m.heap.function? f.function = none) :
    Exec.function watch m = .error (.broken .lostFunction) m := by
  refine (bind_eq (frame_eq head) _).trans ?_
  change orBroken .lostFunction (m.heap.function? f.function) watch m = _
  rw [lost]
  rfl

theorem traceInstruction_eq (watch : Option Handle) {function : Function}
    (head : m.frames.head? = some f) (found : m.heap.function? f.function = some function) :
    ∃ events, traceInstruction watch m = .ok ⟨⟩ { m with events } := by
  let values : ExecutionEvent := .stack (m.stack.toList.map m.heap.display)
  let listing : ExecutionEvent :=
    .instruction (Listing.instruction m.heap.constantFormat function.chunk f.ip).1
  refine ⟨if f.ip < function.chunk.size then listing :: values :: m.events
    else values :: m.events, ?_⟩
  refine (bind_eq (frame_eq head) _).trans ((bind_eq (function_eq head found) _).trans ?_)
  by_cases inside : f.ip < function.chunk.size
  · simp only [inside, if_true]
    rfl
  · simp only [inside, if_false]
    rfl

/-- A step reads the next instruction and carries it out. Tracing only adds events before. -/
theorem step_traced (watch : Option Handle) {function : Function} (head : m.frames.head? = some f)
    (found : m.heap.function? f.function = some function) :
    ∃ events, step watch m = (do
      let instruction ← fetch
      perform instruction.opcode (instruction.operands.getD 0 0)
        (instruction.operands.getD 1 0) : Exec Unit) watch { m with events } := by
  unfold step
  cases tracing : m.config.diagnostics.traceExecution with
  -- Without tracing nothing is recorded.
  | false =>
    refine ⟨m.events, ?_⟩
    change (if m.config.diagnostics.traceExecution then _ else _ : Exec Unit) watch m = _
    rw [tracing]
    rfl
  | true =>
    obtain ⟨events, recorded⟩ := traceInstruction_eq watch head found
    refine ⟨events, ?_⟩
    change (if m.config.diagnostics.traceExecution then _ else _ : Exec Unit) watch m = _
    rw [tracing]
    exact bind_eq recorded _

/-- Without the function of its frame a machine does not begin a step. -/
theorem step_of_lost (watch : Option Handle) (head : m.frames.head? = some f)
    (lost : m.heap.function? f.function = none) :
    step watch m = .error (.broken .lostFunction) m := by
  unfold step
  change (if m.config.diagnostics.traceExecution then _ else _ : Exec Unit) watch m = _
  split
  · exact bind_error
      ((bind_eq (frame_eq head) _).trans (bind_error (function_of_lost head lost) _)) _
  · exact bind_error (bind_error (function_of_lost head lost) _) _

end

/-- What holds after an instruction. -/
def Settled (c : Custody) (_ : Unit) (m : Machine) : Prop := m.Intact c ∧ m.frames ≠ []

namespace Ensures

theorem settle (intact : m.Intact c) (framed : m.frames ≠ []) :
    Ensures c watch (Pure.pure ()) m (Settled c) := ⟨intact, framed⟩

theorem pushSettled (intact : m.Intact c) (framed : m.frames ≠ []) (held : v.Held c m.heap) :
    Ensures c watch (Exec.push v) m (Settled c) := push intact held fun intact => ⟨intact, framed⟩

/-- The value on top of the stack gives way to another one. -/
theorem replaceTop (intact : m.Intact c) (framed : m.frames ≠ []) (held : v.Held c m.heap) :
    Ensures c watch (do Functor.discard Exec.pop; Exec.push v) m (Settled c) := by
  apply bind
  apply discard
  apply pop intact
  intro _ _ _ intact
  exact pushSettled intact framed held

/-- The two values on top of the stack give way to another one. -/
theorem replaceTwo (intact : m.Intact c) (framed : m.frames ≠ []) (held : v.Held c m.heap) :
    Ensures c watch (do Functor.discard Exec.pop; Functor.discard Exec.pop; Exec.push v) m
      (Settled c) := by
  apply bind
  apply discard
  apply pop intact
  intro _ _ _ intact
  exact replaceTop intact framed held

/-! ## Calls -/

theorem call (intact : m.Intact c) :
    Ensures c watch (Exec.call h count) m (Settled c) := by
  apply bind
  apply get
  apply bind
  apply orFail intact
  intro f found
  apply bind
  apply get
  obtain ⟨upvalues, reserved, object⟩ := get?_of_closureFunction? found
  have kind := (intact.heap.object h _ object).1
  -- A closure has a function, so the machine is not broken here.
  obtain ⟨function, at_, -⟩ := function?_of_kind? kind
  refine bind (orBroken at_ (guard intact fun _ => bind (get (guard intact fun _ => ?_))))
  apply bind
  apply calleeSlot intact
  intro _
  exact modify ⟨intact.pushFrame (kind?_of_get? object) kind, List.cons_ne_nil _ _⟩

theorem construct {name : Handle} {methods : Table} (intact : m.Intact c) (framed : m.frames ≠ [])
    (inside : slot < m.stack.size) (found : m.heap.get? cls = some (.cls name methods)) :
    Ensures c watch (Exec.construct cls methods slot count) m (Settled c) := by
  refine bind (get (bind (allocate intact (by simp [Object.kind]) (by simp)
    ⟨kind?_of_get? found, .empty c _⟩ ?_)))
  intro h after allocated intact
  have held : (Value.object h).Held c after :=
    Value.held_object (contains_of_get? allocated.get?)
  apply bind
  -- The instance takes the place of its class, which its own reference keeps.
  apply setSlot intact inside held
  intro intact
  -- An initializer is called; without one there must be no arguments.
  split
  · exact call intact
  · exact malformed intact
  · exact ite (fun _ => fail intact) fun _ => settle intact framed

theorem callValue (intact : m.Intact c) (framed : m.frames ≠ []) (answers : m.Answers c v count) :
    Ensures c watch (Exec.callValue v count) m (Settled c) := by
  apply bind
  apply orFail intact
  intro h eq
  apply bind
  apply calleeSlot intact
  intro below
  apply bind
  apply get
  have inside : m.stack.size - 1 - count < m.stack.size := by omega
  split
  -- A bound method puts its receiver into the slot of the callee.
  next receiver method found =>
    have sound := intact.heap.object h _ found
    exact bind (setSlot intact inside sound.1 fun intact => call intact)
  next name methods found => exact construct intact framed inside found
  next => exact call intact
  -- A host function answers at once.
  next native found =>
    have above : m.stack.size - 1 - count + 1 = m.stack.size - count := by omega
    have held := answers native ⟨h, eq, found⟩
    refine bind (valuesAbove inside (bind (get (bind (truncate intact fun intact => ?_)))))
    rw [above]
    exact pushSettled intact framed held
  next => exact fail intact

theorem returnValue (intact : m.Intact c) (framed : m.frames ≠ []) :
    Ensures c watch Exec.returnValue m (Settled c) := by
  apply bind
  apply pop intact
  intro v held _ intact
  refine bind (frame framed ?_)
  intro f _ _
  have left := intact.popFrame
  refine bind (modify (bind (modify (bind (truncate (left.closeFrom f.base) fun intact => ?_)))))
  -- Closing captured variables frees nothing, so the result is still there.
  have held := held.transfer (Machine.size_cells_closeFrom left.toSound f.base).ge
    fun k _ _ => Machine.keeps_closeFrom left.toSound f.base k
  apply bind
  apply get
  refine ite (fun last => bind ⟨intact, held, by simpa using last⟩) ?_
  intro more
  exact pushSettled intact (by simpa using more) held

/-! ## Methods -/

theorem method? {post : Option Handle → Machine → Prop}
    (holds : ∀ o, (∀ h, o = some h → ∃ methods v, m.heap.methods? cls = some methods ∧
      methods.get? key = some v ∧ v.handle? = some h) → post o m) :
    Ensures c watch (Exec.method? cls key) m post := by
  refine bind (get (pure (holds _ fun h eq => ?_)))
  obtain ⟨v, found, eq⟩ := Option.bind_eq_some_iff.mp eq
  obtain ⟨methods, cls, found⟩ := Option.bind_eq_some_iff.mp found
  exact ⟨methods, v, cls, found, eq⟩

theorem undefinedProperty {α : Type} {post : α → Machine → Prop} (intact : m.Intact c) :
    Ensures c watch (Exec.undefinedProperty key) m post := bind (textOf fun _ => fail intact)

theorem invokeFrom (intact : m.Intact c) :
    Ensures c watch (Exec.invokeFrom cls key count) m (Settled c) := by
  apply bind
  apply method?
  intro o _
  split
  · exact call intact
  · exact undefinedProperty intact

theorem invoke (intact : m.Intact c) (framed : m.frames ≠ [])
    (found : m.heap.key? key.handle = some key)
    (answers : ∀ receiver h owner fields v,
      m.stack[m.stack.size - 1 - count]? = some receiver → receiver.handle? = some h →
        m.heap.get? h = some (.inst owner fields) → fields.get? key = some v →
          m.Answers c v count) :
    Ensures c watch (Exec.invoke key count) m (Settled c) := by
  apply bind
  apply peek intact
  intro receiver _ _ at_
  apply bind
  apply instance?
  intro o same
  apply bind
  apply orFail intact
  rintro ⟨h, owner, fields⟩ eq
  obtain ⟨handle, object⟩ := same h owner fields eq
  have sound := (intact.heap.object h _ object).2
  simp only
  -- A field is called in place of a method.
  split
  next value field =>
    have held := sound.held_of_get? found field
    have answers := answers receiver h owner fields value at_ handle object field
    apply bind
    apply calleeSlot intact
    intro below
    have inside : m.stack.size - 1 - count < m.stack.size := by omega
    apply bind
    apply setSlot intact inside held
    intro intact
    apply callValue intact framed
    -- The callee replaces the receiver, below the arguments.
    intro native isNative
    have same := answers native isNative
    simp only [Machine.answer, Array.size_setIfInBounds] at same ⊢
    rw [Array.setIfInBounds_def, dif_pos inside, Array.extract_set inside, dif_pos (by omega)]
    exact same
  next => exact invokeFrom intact

/-- The method is kept by the bound method itself, and the receiver by the stack. -/
theorem bindMethod (intact : m.Intact c) (framed : m.frames ≠ [])
    (found : m.heap.key? key.handle = some key) :
    Ensures c watch (Exec.bindMethod cls key) m (Settled c) := by
  apply bind
  apply method?
  intro o source
  split
  · exact undefinedProperty intact
  next method =>
    obtain ⟨methods, v, owner, listed, handle⟩ := source method rfl
    obtain ⟨name, object⟩ := get?_of_methods? owner
    have held := (intact.heap.object _ _ object).2.held_of_get? found listed method handle
    apply bind
    apply peek intact
    intro receiver mem _ _
    apply bind
    have fits : (Object.bound receiver method).Sound c m.heap ⟨m.heap.cells.size⟩ :=
      ⟨intact.stack receiver mem, held, fun known => held.lt_size known⟩
    apply allocate intact (by simp [Object.kind]) (by simp) fits
    intro bound after allocated intact
    have live : (Value.object bound).Held c after :=
      Value.held_object (contains_of_get? allocated.get?)
    exact replaceTop intact framed live

theorem getProperty (intact : m.Intact c) (framed : m.frames ≠ [])
    (found : m.heap.key? key.handle = some key) :
    Ensures c watch (Exec.getProperty key) m (Settled c) := by
  apply bind
  apply peek intact
  intro receiver _ _ _
  apply bind
  apply instance?
  intro o same
  apply bind
  apply orFail intact
  rintro ⟨h, owner, fields⟩ eq
  obtain ⟨-, object⟩ := same h owner fields eq
  simp only
  split
  next value field =>
    have held := (intact.heap.object h _ object).2.held_of_get? found field
    exact replaceTop intact framed held
  next => exact bindMethod intact framed found

theorem setProperty (intact : m.Intact c) (framed : m.frames ≠ [])
    (found : m.heap.key? key.handle = some key) :
    Ensures c watch (Exec.setProperty key) m (Settled c) := by
  apply bind
  apply peek intact
  intro target _ _ _
  apply bind
  apply peek intact
  intro value mem _ _
  apply bind
  apply instance?
  intro o same
  apply bind
  apply orFail intact
  rintro ⟨h, owner, fields⟩ eq
  obtain ⟨-, object⟩ := same h owner fields eq
  have sound := (intact.heap.object h _ object).2.insert found (intact.stack value mem)
  -- The field is set first, then the charge of the instance is brought up to date.
  have intact := (intact.setFields object sound).recharged h
  have held := intact.stack value mem
  exact bind (modifyHeap (replaceTwo intact framed held))

theorem popClass {post : Handle → Machine → Prop} (intact : m.Intact c)
    (holds : ∀ cls, ({ m with stack := m.stack.pop } : Machine).Intact c →
      post cls { m with stack := m.stack.pop }) :
    Ensures c watch Exec.popClass m post :=
  bind (pop intact fun _ _ _ intact => bind (class? fun _ _ => bind (orFail intact fun r _ =>
    pure (holds r.1 intact))))

theorem inherit (intact : m.Intact c) (framed : m.frames ≠ []) :
    Ensures c watch Exec.inherit m (Settled c) := by
  apply bind
  apply peek intact
  intro superclass _ _ _
  apply bind
  apply peek intact
  intro subclass _ _ _
  apply bind
  apply class?
  intro o same
  apply bind
  apply orFail intact
  rintro ⟨_, inherited⟩ eq
  obtain ⟨-, _, above⟩ := same _ inherited eq
  apply bind
  apply class?
  intro o same
  apply bind
  apply orMalformed intact
  rintro ⟨h, methods⟩ eq
  obtain ⟨-, _, object⟩ := same h methods eq
  -- The keys of the superclass are live strings, as they are of any sound table.
  have sound := (intact.heap.object h _ object).2.addAll (intact.heap.object _ _ above).2
  have intact := (intact.setMethods object sound).recharged h
  exact bind (modifyHeap (discard (pop intact fun _ _ _ intact => ⟨intact, framed⟩)))

theorem defineMethod (intact : m.Intact c) (framed : m.frames ≠ [])
    (found : m.heap.key? key.handle = some key) :
    Ensures c watch (Exec.defineMethod key) m (Settled c) := by
  apply bind
  apply peek intact
  intro method mem _ _
  apply bind
  apply peek intact
  intro _ _ _ _
  apply bind
  apply class?
  intro o same
  apply bind
  apply orMalformed intact
  rintro ⟨h, methods⟩ eq
  obtain ⟨-, _, object⟩ := same h methods eq
  have sound := (intact.heap.object h _ object).2.insert found (intact.stack method mem)
  have intact := (intact.setMethods object sound).recharged h
  exact bind (modifyHeap (discard (pop intact fun _ _ _ intact => ⟨intact, framed⟩)))

/-! ## Closures and captured variables -/

theorem resolve {post : Handle → Machine → Prop} {capture : Capture} (intact : m.Intact c)
    (framed : m.frames ≠ [])
    (holds : ∀ h m', m'.heap.kind? h = some .upvalue → m'.Intact c → m'.stack = m.stack →
      m'.frames = m.frames → (∀ k ∈ m.roots, m.heap.contains k → m.heap.Keeps m'.heap k) →
        post h m') :
    Ensures c watch (Exec.resolve capture) m post := by
  apply ite (fun _ => bind (frame framed fun _ _ _ => captureSlot intact holds))
  intro _
  exact upvalue intact framed fun h live => holds h m live intact rfl rfl fun k _ _ => .refl _ k

/-- The closure lies on the stack, so it is kept while captured variables are allocated. -/
theorem captureAll {captures : List Capture} (intact : m.Intact c) (framed : m.frames ≠ [])
    (mem : .object h ∈ m.stack) (live : m.heap.kind? h = some .closure) :
    Ensures c watch (Exec.captureAll h captures) m (Settled c) := by
  induction captures generalizing m with
  | nil => exact settle intact framed
  | cons capture rest ih =>
    apply bind
    apply resolve intact framed
    intro u m' captured intact stack frames keeps
    rw [← stack] at mem
    rw [← frames] at framed
    -- Making the captured variable may have collected.
    have root : h ∈ m.roots := Machine.mem_roots_stack (stack ▸ mem) rfl
    have live : m'.heap.kind? h = some .closure :=
      (keeps h root (contains_of_kind? live)).kind.trans live
    obtain ⟨object, found, kind⟩ := kind?_eq_some_iff.mp live
    cases object <;> cases kind
    refine bind (get (ite (fun gone => ?_) fun _ => bind (modifyHeap ?_)))
    -- The closure is still there.
    · simp [contains_of_get? found] at gone
    · have intact := intact.pushCaptured found captured
      exact ih intact framed mem ((keeps_pushCaptured found u h).kind.trans live)

theorem makeClosure {index : Nat} (intact : m.Intact c) (framed : m.frames ≠ []) :
    Ensures c watch (Exec.makeClosure index) m (Settled c) := by
  apply bind
  apply constant intact framed
  intro v _ _ _ _ _ _
  apply bind
  apply get
  apply bind
  apply orMalformed intact
  rintro ⟨h, f⟩ eq
  obtain ⟨h', handle, eq⟩ := Option.bind_eq_some_iff.mp eq
  obtain ⟨f', found, eq⟩ := Option.bind_eq_some_iff.mp eq
  obtain ⟨rfl, rfl⟩ : h' = h ∧ f' = f := by simpa using eq
  have kind := kind?_of_get? (get?_of_function? found)
  apply bind
  apply fetchCaptures intact framed
  intro captures ip intact framed
  apply bind
  refine allocate intact (by simp [Object.kind]) (by simp) ⟨kind, fun u mem => by simp at mem⟩ ?_
  intro closure after allocated intact
  have held : (Value.object closure).Held c after :=
    Value.held_object (contains_of_get? allocated.get?)
  refine bind (push intact held fun intact => captureAll intact framed ?_ ?_)
  · exact Array.mem_push_self
  · exact kind?_of_get? allocated.get?

theorem getUpvalue {post : Value → Machine → Prop} {index : Nat} (intact : m.Intact c)
    (framed : m.frames ≠ []) (holds : ∀ v, v.Held c m.heap → post v m) :
    Ensures c watch (Exec.getUpvalue index) m post := by
  apply bind
  apply upvalue intact framed
  intro h live
  apply bind
  apply get
  obtain ⟨u, -, found⟩ := upvalue?_of_kind? live
  apply bind
  apply orBroken found
  cases u with
  | opened slot =>
    exact orMalformed intact fun v at_ => holds v (intact.stack v (Array.mem_of_getElem? at_))
  | closed v => exact pure (holds v (intact.heap.object h _ found))

theorem setUpvalue {index : Nat} (intact : m.Intact c) (framed : m.frames ≠ []) :
    Ensures c watch (Exec.setUpvalue index) m (Settled c) := by
  apply bind
  apply upvalue intact framed
  intro h live
  apply bind
  apply peek intact
  intro v mem _ _
  obtain ⟨u, -, found⟩ := upvalue?_of_kind? live
  have held := intact.stack v mem
  apply bind
  apply get
  apply bind
  apply orBroken found
  cases u with
  -- An open variable is written to the stack, a closed one to its object.
  | opened slot =>
    refine ite (fun inside => ?_) fun _ => malformed intact
    exact setSlot intact inside held fun intact => ⟨intact, framed⟩
  | closed old => exact modifyHeap ⟨intact.setClosed found held, framed⟩

theorem closeTop (intact : m.Intact c) (framed : m.frames ≠ []) :
    Ensures c watch Exec.closeTop m (Settled c) := by
  apply bind
  apply get
  apply ite (fun _ => bind (malformed intact))
  intro _
  apply bind
  apply modify
  have framed : (m.closeFrom (m.stack.size - 1)).frames ≠ [] := by
    rw [Machine.closeFrom_eq]
    exact framed
  exact discard (pop (intact.closeFrom _) fun _ _ _ intact => ⟨intact, framed⟩)

/-! ## Operators -/

theorem binary {op : Number → Number → Value} (intact : m.Intact c) (framed : m.frames ≠ [])
    (plain : ∀ x y, (op x y).handle? = none) :
    Ensures c watch (Exec.binary op) m (Settled c) := by
  apply bind
  apply peek intact
  intro _ _ _ _
  apply bind
  apply peek intact
  intro _ _ _ _
  split
  next =>
    exact replaceTwo intact framed (Value.held_of_handle?_eq_none (plain _ _))
  next => exact fail intact

theorem join {a b : Value} (intact : m.Intact c) (framed : m.frames ≠ []) :
    Ensures c watch (Exec.join a b) m (Settled c) := by
  apply bind
  apply get
  apply guard intact
  intro _
  split
  next left right _ _ =>
    apply bind
    apply intern intact
    intro h after found intact
    -- The joined string is live, whether it is new or not, and popping frees nothing.
    have held : (Value.object h).Held c after :=
      Value.held_object (contains_of_text? found)
    exact replaceTwo intact framed held
  next => exact fail intact

theorem add (intact : m.Intact c) (framed : m.frames ≠ []) :
    Ensures c watch Exec.add m (Settled c) := by
  apply bind
  apply peek intact
  intro _ _ _ _
  apply bind
  apply peek intact
  intro _ _ _ _
  split
  next =>
    exact replaceTwo intact framed (Value.held_of_handle?_eq_none rfl)
  next => exact join intact framed

theorem negate (intact : m.Intact c) (framed : m.frames ≠ []) :
    Ensures c watch Exec.negate m (Settled c) := by
  apply bind
  apply peek intact
  intro _ _ _ _
  split
  next =>
    exact replaceTop intact framed (Value.held_of_handle?_eq_none rfl)
  next => exact fail intact

theorem print (intact : m.Intact c) (framed : m.frames ≠ []) :
    Ensures c watch Exec.print m (Settled c) := by
  apply bind
  apply pop intact
  intro _ _ _ intact
  apply bind
  apply get
  apply bind
  apply set
  exact ite (fun _ => fail (intact.withSink _)) fun _ => settle (intact.withSink _) framed

/-! ## Globals -/

theorem getGlobal (intact : m.Intact c) (framed : m.frames ≠ [])
    (found : m.heap.key? key.handle = some key) :
    Ensures c watch (Exec.getGlobal key) m (Settled c) := by
  apply bind
  apply get
  split
  next v global => exact pushSettled intact framed (intact.globals.held_of_get? found global)
  next => exact bind (textOf fun _ => fail intact)

theorem defineGlobal (intact : m.Intact c) (framed : m.frames ≠ [])
    (found : m.heap.key? key.handle = some key) :
    Ensures c watch (Exec.defineGlobal key) m (Settled c) := by
  apply bind
  apply peek intact
  intro v mem _ _
  apply bind
  apply discard
  apply modifyGet
  have intact := intact.withGlobals (intact.globals.insert found (intact.stack v mem))
  exact discard (pop intact fun _ _ _ intact => ⟨intact, framed⟩)

theorem setGlobal (intact : m.Intact c) (framed : m.frames ≠ [])
    (found : m.heap.key? key.handle = some key) :
    Ensures c watch (Exec.setGlobal key) m (Settled c) := by
  apply bind
  apply peek intact
  intro v mem _ _
  apply bind
  apply modifyGet
  have stored := intact.globals.insert found (intact.stack v mem)
  -- A new global is erased again before the error.
  refine ite (fun _ => bind (modify (bind (textOf fun _ => fail ?_)))) fun _ => settle ?_ framed
  · exact intact.withGlobals (stored.erase found)
  · exact intact.withGlobals stored

/-! ## Jumps -/

theorem jump {distance : Nat} (intact : m.Intact c) (framed : m.frames ≠ []) :
    Ensures c watch (Exec.jump distance) m (Settled c) :=
  bind (frame framed fun _ _ _ => setIp intact fun intact =>
    ⟨intact, Machine.frames_withIp_ne_nil framed _⟩)

theorem jumpBack {distance : Nat} (intact : m.Intact c) (framed : m.frames ≠ []) :
    Ensures c watch (Exec.jumpBack distance) m (Settled c) :=
  bind (frame framed fun _ _ _ => ite (fun _ => bind (malformed intact))
    fun _ => setIp intact fun intact => ⟨intact, Machine.frames_withIp_ne_nil framed _⟩)

/-! ## Any instruction -/

/-- An instruction keeps the machine intact, provided that a host function it calls gives what is
promised. -/
theorem perform {op : Opcode} {a b : Nat} (intact : m.Intact c) (framed : m.frames ≠ [])
    (answers : ∀ callee count, m.callee? op a b = some (callee, count) →
      m.Answers c callee count) :
    Ensures c watch (Exec.perform op a b) m (Settled c) := by
  cases op with
  | constant | longConstant =>
    exact bind (constant intact framed fun v _ _ _ _ _ held => pushSettled intact framed held)
  | pushNil | pushTrue | pushFalse =>
    exact pushSettled intact framed (Value.held_of_handle?_eq_none rfl)
  | pop => exact discard (pop intact fun _ _ _ intact => ⟨intact, framed⟩)
  | getLocal => exact bind (getLocal intact framed fun v held => pushSettled intact framed held)
  | setLocal =>
    exact bind (peek intact fun v mem _ _ => setLocal intact framed (intact.stack v mem)
      fun _ intact => ⟨intact, framed⟩)
  | getGlobal => exact bind (name intact framed fun _ _ found => getGlobal intact framed found)
  | defineGlobal =>
    exact bind (name intact framed fun _ _ found => defineGlobal intact framed found)
  | setGlobal => exact bind (name intact framed fun _ _ found => setGlobal intact framed found)
  | getUpvalue => exact bind (getUpvalue intact framed fun v held => pushSettled intact framed held)
  | setUpvalue => exact setUpvalue intact framed
  | getProperty =>
    exact bind (name intact framed fun _ _ found => getProperty intact framed found)
  | setProperty =>
    exact bind (name intact framed fun _ _ found => setProperty intact framed found)
  | getSuper =>
    exact bind (name intact framed fun _ _ found => bind (popClass intact fun _ intact =>
      bindMethod intact framed found))
  | equal =>
    exact bind (pop intact fun _ _ _ intact => bind (pop intact fun _ _ _ intact =>
      pushSettled intact framed (Value.held_of_handle?_eq_none rfl)))
  | greater | less | subtract | multiply | divide =>
    exact binary intact framed fun _ _ => rfl
  | add => exact add intact framed
  | not =>
    exact bind (pop intact fun _ _ _ intact =>
      pushSettled intact framed (Value.held_of_handle?_eq_none rfl))
  | negate => exact negate intact framed
  | print => exact print intact framed
  | jump => exact jump intact framed
  | jumpIfFalse =>
    exact bind (peek intact fun _ _ _ _ => ite (fun _ => jump intact framed)
      fun _ => settle intact framed)
  | loop => exact jumpBack intact framed
  | call =>
    refine bind (peek intact fun callee _ _ at_ => callValue intact framed (answers callee a ?_))
    rw [Machine.callee?, at_, Option.map_some]
  -- What is called is the field, if there is one.
  | invoke =>
    apply bind
    apply name intact framed
    intro key named found
    apply invoke intact framed found
    intro receiver h owner fields v at_ handle object field
    have instance_ : m.heap.instance? h = some (owner, fields) := by rw [Heap.instance?, object]
    apply answers v b
    simp only [Machine.callee?, named, at_, handle, instance_, field, Option.bind_eq_bind,
      Option.bind_some, Option.pure_def]
  | superInvoke =>
    exact bind (name intact framed fun _ _ _ => bind (popClass intact fun _ intact =>
      invokeFrom intact))
  | closure => exact makeClosure intact framed
  | closeUpvalue => exact closeTop intact framed
  | newClass =>
    apply bind
    apply name intact framed
    intro key _ found
    refine bind (allocate intact (by simp [Object.kind]) (by simp)
      ⟨kind?_of_key? found, .empty c _⟩ ?_)
    intro h after allocated intact
    exact pushSettled intact framed (Value.held_object (contains_of_get? allocated.get?))
  | inherit => exact inherit intact framed
  | method => exact bind (name intact framed fun _ _ found => defineMethod intact framed found)
  | ret => exact returnValue intact framed

/-- A step keeps the machine intact, or stops it in order. -/
theorem step (intact : m.Intact c) (framed : m.frames ≠ []) (honest : m.Honest c) :
    Ensures c watch Exec.step m (Settled c) := by
  obtain ⟨f, head⟩ := Machine.exists_head? framed
  have kind := intact.functions f (List.mem_of_mem_head? head)
  obtain ⟨function, found, -⟩ := function?_of_kind? kind
  -- A step is that of a machine that has recorded more events.
  obtain ⟨events, traced⟩ := step_traced watch head found
  unfold Ensures
  rw [traced]
  apply bind
  apply fetch (intact.withEvents events) framed
  intro instruction ip next intact framed
  apply perform intact framed
  intro callee count called
  rw [Machine.callee?_withIp] at called
  have next : m.next? = some instruction := next
  exact honest callee count (by
    rw [Machine.nextCallee?, next, Option.bind_eq_bind, Option.bind_some]
    exact called)

/-- Entering a function keeps the machine intact, whether or not it had a frame. -/
theorem enter (intact : m.Intact c) :
    Ensures c watch (Machine.enter h) m (Settled c) := by
  apply bind
  apply get
  apply bind
  apply discard
  apply orFail intact
  intro f found
  have object := get?_of_function? found
  have held : (Value.object h).Held c m.heap :=
    Value.held_object (contains_of_get? object)
  -- The function lies on the stack while its closure is made.
  refine bind (push intact held fun intact => bind (allocate intact
    (by simp [Object.kind]) (by simp) ⟨kind?_of_get? object, fun u mem => by simp at mem⟩ ?_))
  intro closure after allocated intact
  have live : (Value.object closure).Held c after :=
    Value.held_object (contains_of_get? allocated.get?)
  exact bind (discard (pop intact fun _ _ _ intact => bind (push intact live fun intact =>
    call intact)))

end Ensures

end Exec

end ScriptMachine
