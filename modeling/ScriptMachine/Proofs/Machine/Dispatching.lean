/-
# Dispatch

What instructions come to that look for a property of an instance. A field is
found first, whatever it is. If there is none, the class is asked for a method,
which has to be an object, and if it has none, the instruction fails for want of
the property. Reading a property replaces the instance on top of the stack, by
the field or by the method bound to the instance; invoking a property calls it in
place of the instance below the arguments, or enters the method right away.

## Main definitions

* `Heap.property?` — how a property of an instance is found
* `Machine.Reads`, `Machine.Calls` — the next step reads or calls this property

## Main results

* `getProperty_eq`, `bindMethod_eq` — reading a property
* `invoke_eq`, `invokeFrom_eq` — invoking a property
* `Occurs.reads`, `calls_of_invoke` — what the instructions do
-/

import ScriptMachine.Proofs.Machine.Globals

namespace ScriptMachine

open Heap

/-- The method of a class with a key, if it is an object. -/
def Heap.method? (heap : Heap) (cls : Handle) (key : Key) : Option Handle :=
  ((heap.methods? cls).bind (·.get? key)).bind Value.handle?

namespace Exec

open Machine

variable {m : Machine} {h cls : Handle} {fields : Table} {key : Key} {v : Value} {name : String}
  {count : Nat}

theorem instance?_eq (found : m.heap.instance? h = some (cls, fields)) :
    instance? (.object h) none m = .ok (some (h, cls, fields)) m := by
  change EStateM.Result.ok ((m.heap.instance? h).bind fun p => some (h, p.1, p.2)) m = _
  rw [found]
  rfl

theorem method?_eq (m : Machine) (cls : Handle) (key : Key) :
    method? cls key none m = .ok (m.heap.method? cls key) m := rfl

theorem undefinedProperty_eq {α : Type} (text : m.heap.text? key.handle = some name) :
    (undefinedProperty key : Exec α) none m = .error (.failed (.undefinedProperty name)) m := by
  change EStateM.Result.error
    (Stop.failed (.undefinedProperty ((m.heap.text? key.handle).getD ""))) m = _
  rw [text]
  rfl

theorem discard_pop_eq (top : m.stack.back? = some v) :
    (discard pop : Exec Unit) none m = .ok ⟨⟩ { m with stack := m.stack.pop } := by
  change (pop >>= fun _ => (Pure.pure ⟨⟩ : Exec PUnit)) none m = _
  exact bind_eq (pop_eq top) _

/-- There is room for a value where there has been one. -/
theorem replaceTop_eq (limit : m.stack.size ≤ m.config.stackLimit) (top : m.stack.back? = some v)
    (w : Value) : (do discard pop; push w) none m =
      .ok ⟨⟩ { m with stack := m.stack.pop.push w } := by
  have filled : 0 < m.stack.size := by
    have := (Array.getElem?_eq_some_iff.mp top).1
    omega
  rw [bind_eq (discard_pop_eq top), push_eq, if_neg]
  change ¬ m.config.stackLimit ≤ m.stack.pop.size
  rw [Array.size_pop]
  omega

theorem replaceTwo_eq (limit : m.stack.size ≤ m.config.stackLimit) (two : 1 < m.stack.size)
    (w : Value) : (do discard pop; discard pop; push w) none m =
      .ok ⟨⟩ { m with stack := m.stack.pop.pop.push w } := by
  let popped : Machine := { m with stack := m.stack.pop }
  have size : popped.stack.size = m.stack.size - 1 := Array.size_pop
  obtain ⟨_, top⟩ := exists_back? (m := m) (by omega)
  obtain ⟨_, second⟩ := exists_back? (m := popped) (by omega)
  refine (bind_eq (discard_pop_eq top) _).trans ?_
  exact replaceTop_eq (m := popped) ((size ▸ Nat.sub_le _ _).trans limit) second w

/-- A method is bound to the value on top of the stack. -/
theorem bindMethod_eq (limit : m.stack.size ≤ m.config.stackLimit) (top : m.stack.back? = some v)
    (cls : Handle) (key : Key) : bindMethod cls key none m = match m.heap.method? cls key with
      | some method => .ok ⟨⟩ { (m.allocate (.bound v method) []).2 with
          stack := m.stack.pop.push (.object (m.allocate (.bound v method) []).1) }
      | none => undefinedProperty key none m := by
  refine (bind_eq (method?_eq m cls key) _).trans ?_
  cases m.heap.method? cls key with
  | none => rfl
  | some method =>
    refine (bind_eq (peek_eq top) _).trans ?_
    exact replaceTop_eq (m := (m.allocate (.bound v method) []).2) limit top _

theorem getProperty_eq (top : m.stack.back? = some (.object h))
    (found : m.heap.instance? h = some (cls, fields)) (key : Key) :
    getProperty key none m = match fields.get? key with
      | some v => (do discard pop; push v) none m
      | none => bindMethod cls key none m := by
  refine (bind_eq (peek_eq top) _).trans ?_
  refine (bind_eq (instance?_eq found) _).trans ?_
  change (match fields.get? key with | some v => _ | none => _ : Exec Unit) none m = _
  cases fields.get? key <;> rfl

theorem peek_eq_getElem? (inside : count < m.stack.size)
    (at_ : m.stack[m.stack.size - 1 - count]? = some v) : peek count none m = .ok v m := by
  change (if count < m.stack.size then orMalformed .stackUnderflow
    m.stack[m.stack.size - 1 - count]? else malformed .stackUnderflow : Exec Value) none m = _
  rw [if_pos inside, at_]
  rfl

theorem calleeSlot_eq (inside : count < m.stack.size) :
    calleeSlot count none m = .ok (m.stack.size - 1 - count) m := by
  change (if count < m.stack.size then _ else _ : Exec Nat) none m = _
  rw [if_pos inside]
  rfl

theorem setSlot_eq {slot : Nat} (inside : slot < m.stack.size) (v : Value) :
    setSlot slot v none m = .ok ⟨⟩ { m with stack := m.stack.setIfInBounds slot v } := by
  change (if slot < m.stack.size then _ else _ : Exec Unit) none m = _
  rw [if_pos inside]
  rfl

theorem call_of_not_closure (other : m.heap.closureFunction? h = none) :
    call h count none m = .error (.failed .notCallable) m := by
  change (orFail .notCallable (m.heap.closureFunction? h) >>= _ : Exec Unit) none m = _
  rw [other]
  rfl

theorem call_of_closure {function : Handle} {f : Function} (inside : count < m.stack.size)
    (closure : m.heap.closureFunction? h = some function)
    (found : m.heap.function? function = some f) :
    call h count none m =
      if count ≠ f.arity then .error (.failed (.arityMismatch f.arity count)) m
      else if m.config.framesMax ≤ m.frames.length then .error (.failed .stackOverflow) m
      else .ok ⟨⟩ { m with frames := ⟨h, function, 0, m.stack.size - 1 - count⟩ :: m.frames } := by
  change (orFail .notCallable (m.heap.closureFunction? h) >>= _ : Exec Unit) none m = _
  rw [closure]
  change (orBroken .lostFunction (m.heap.function? function) >>= _ : Exec Unit) none m = _
  rw [found]
  by_cases arity : count = f.arity
  · by_cases full : m.config.framesMax ≤ m.frames.length
    · rw [if_neg (not_not.mpr arity), if_pos full]
      change (if count ≠ f.arity then _ else _ : Exec Unit) none m = _
      rw [if_neg (not_not.mpr arity)]
      change (if m.config.framesMax ≤ m.frames.length then _ else _ : Exec Unit) none m = _
      rw [if_pos full]
      rfl
    · rw [if_neg (not_not.mpr arity), if_neg full]
      change (if count ≠ f.arity then _ else _ : Exec Unit) none m = _
      rw [if_neg (not_not.mpr arity)]
      change (if m.config.framesMax ≤ m.frames.length then _ else _ : Exec Unit) none m = _
      rw [if_neg full]
      exact bind_eq (calleeSlot_eq inside) _
  · rw [if_pos arity]
    change (if count ≠ f.arity then _ else _ : Exec Unit) none m = _
    rw [if_pos arity]
    rfl

theorem callValue_of_bound {b k : Handle} {receiver : Value} (inside : count < m.stack.size)
    (found : m.heap.get? b = some (.bound receiver k)) :
    callValue (.object b) count none m = call k count none
      { m with stack := m.stack.setIfInBounds (m.stack.size - 1 - count) receiver } := by
  refine (bind_eq (calleeSlot_eq inside) _).trans ?_
  have looked : (get : Exec Machine) none m = .ok m m := rfl
  refine (bind_eq looked _).trans ?_
  rw [found]
  exact bind_eq (setSlot_eq (by omega) receiver) _

theorem invokeFrom_eq (m : Machine) (cls : Handle) (key : Key) (count : Nat) :
    invokeFrom cls key count none m = match m.heap.method? cls key with
      | some method => call method count none m
      | none => undefinedProperty key none m := by
  refine (bind_eq (method?_eq m cls key) _).trans ?_
  cases m.heap.method? cls key <;> rfl

theorem invoke_eq (inside : count < m.stack.size)
    (at_ : m.stack[m.stack.size - 1 - count]? = some (.object h))
    (found : m.heap.instance? h = some (cls, fields)) (key : Key) :
    invoke key count none m = match fields.get? key with
      | some v => callValue v count none
          { m with stack := m.stack.setIfInBounds (m.stack.size - 1 - count) v }
      | none => invokeFrom cls key count none m := by
  refine (bind_eq (peek_eq_getElem? inside at_) _).trans ?_
  refine (bind_eq (instance?_eq found) _).trans ?_
  change (match fields.get? key with | some v => _ | none => _ : Exec Unit) none m = _
  cases fields.get? key with
  | none => rfl
  | some v =>
    refine (bind_eq (calleeSlot_eq inside) _).trans ?_
    exact bind_eq (setSlot_eq (by omega) v) _

end Exec

/-! ## Properties -/

/-- How a property of an instance is found. -/
inductive Property
  | field (v : Value)
  | method (h : Handle)

/-- The property of an instance with these fields and this class. -/
def Heap.property? (heap : Heap) (cls : Handle) (fields : Table) (key : Key) : Option Property :=
  match fields.get? key with
  | some v => some (.field v)
  | none => (heap.method? cls key).map .method

namespace Machine

variable {m : Machine} {h cls : Handle} {fields : Table} {key : Key} {name : String}
  {instruction : Instruction}

/-- The next step finds this property of the instance on top of the stack, and reads it. -/
def Reads (m : Machine) (h : Handle) (name : String) : Option Property → Prop
  | some (.field v) => ∃ m', Exec.step none m = .ok ⟨⟩ m' ∧ m'.stack = m.stack.pop.push v
  | some (.method k) => ∃ m' bound, Exec.step none m = .ok ⟨⟩ m' ∧
      m'.stack = m.stack.pop.push (.object bound) ∧
      m'.heap.get? bound = some (.bound (.object h) k)
  | none => m.stopped? Exec.step none = some (.failed (.undefinedProperty name))

/-- The next step finds this property of the instance below the arguments, and calls it. A field
takes the place of the instance first. -/
def Calls (m : Machine) (count : Nat) (name : String) : Option Property → Prop
  | some (.field v) => ∃ events, Exec.step none m = Exec.callValue v count none
      { m.fetched events with stack := m.stack.setIfInBounds (m.stack.size - 1 - count) v }
  | some (.method k) => ∃ events, Exec.step none m = Exec.call k count none (m.fetched events)
  | none => m.stopped? Exec.step none = some (.failed (.undefinedProperty name))

theorem stopped?_of_step_eq {kind : ErrorKind} {m' : Machine}
    (ran : Exec.step none m = .error (.failed kind) m') :
    m.stopped? Exec.step none = some (.failed kind) := by
  rw [stopped?, ran]

/-- An instruction that reads a property reads the field if there is one, and otherwise the
method. -/
theorem Occurs.reads (occurs : m.Occurs) (next : m.next? = some instruction)
    (op : instruction.opcode = .getProperty)
    (named : m.name? (instruction.operands.getD 0 0) = some key)
    (text : m.heap.text? key.handle = some name) (top : m.stack.back? = some (.object h))
    (found : m.heap.instance? h = some (cls, fields)) :
    m.Reads h name (m.heap.property? cls fields key) := by
  obtain ⟨events, eq⟩ := Exec.step_eq_nextIp none next
  have regular := occurs.regular.fetched events
  have ran : Exec.step none m = Exec.getProperty key none (m.fetched events) := by
    rw [eq, op]
    exact Exec.bind_eq (Exec.name_eq ((m.name?_fetched events _).trans named)) _
  rw [Exec.getProperty_eq (m := m.fetched events) top found] at ran
  unfold property?
  cases field : fields.get? key with
  | some v =>
    rw [field] at ran
    exact ⟨_, ran.trans (Exec.replaceTop_eq (m := m.fetched events) regular.stack top v), rfl⟩
  | none =>
    rw [field] at ran
    have bound := Exec.bindMethod_eq (m := m.fetched events) regular.stack top cls key
    change Exec.bindMethod cls key none (m.fetched events) = match m.heap.method? cls key with
      | some _ => _ | none => _ at bound
    cases method : m.heap.method? cls key with
    | some k =>
      rw [method] at bound
      have allocated := allocated_allocate regular.heap.arises.clean (.bound (.object h) k)
        ((m.fetched events).roots ++ [])
      exact ⟨_, _, ran.trans bound, rfl, allocated.get?⟩
    | none =>
      rw [method] at bound
      exact stopped?_of_step_eq ((ran.trans bound).trans (Exec.undefinedProperty_eq text))

/-- An instruction that invokes a property calls the field if there is one, and otherwise the
method. -/
theorem calls_of_invoke (next : m.next? = some instruction)
    (op : instruction.opcode = .invoke)
    (named : m.name? (instruction.operands.getD 0 0) = some key)
    (text : m.heap.text? key.handle = some name)
    (inside : instruction.operands.getD 1 0 < m.stack.size)
    (at_ : m.stack[m.stack.size - 1 - instruction.operands.getD 1 0]? = some (.object h))
    (found : m.heap.instance? h = some (cls, fields)) :
    m.Calls (instruction.operands.getD 1 0) name (m.heap.property? cls fields key) := by
  obtain ⟨events, eq⟩ := Exec.step_eq_nextIp none next
  have ran : Exec.step none m =
      Exec.invoke key (instruction.operands.getD 1 0) none (m.fetched events) := by
    rw [eq, op]
    exact Exec.bind_eq (Exec.name_eq ((m.name?_fetched events _).trans named)) _
  rw [Exec.invoke_eq (m := m.fetched events) inside at_ found] at ran
  unfold property?
  cases field : fields.get? key with
  | some v =>
    rw [field] at ran
    exact ⟨events, ran⟩
  | none =>
    rw [field] at ran
    have entered := Exec.invokeFrom_eq (m.fetched events) cls key (instruction.operands.getD 1 0)
    change _ = match m.heap.method? cls key with | some _ => _ | none => _ at entered
    cases method : m.heap.method? cls key with
    | some k =>
      rw [method] at entered
      exact ⟨events, ran.trans entered⟩
    | none =>
      rw [method] at entered
      exact stopped?_of_step_eq ((ran.trans entered).trans (Exec.undefinedProperty_eq text))

end Machine

end ScriptMachine
