/-
# Fused calls

An instruction that invokes a method finds it and calls it at once. The same can
be done in two steps: the receiver is replaced by its property, which may have to
be bound to it for that, and later, once the arguments are there, this is called.
Both ways end alike. If they fail, they fail with the same error; and if they go
through, the machines differ in nothing but objects that they do not need, such
as the bound method that only the longer way has made.

## Main definitions

* `Machine.Indistinct` — machines that differ only in objects that are not needed
* `Exec.EndsAlike` — actions that fail alike, or lead to such machines
* `Exec.inTwoSteps` — replace a value by a property, and call that

## Main results

* `Exec.endsAlike_of_bound` — calling a bound method is calling the method
* `Occurs.fused_calls` — invoking is reading a property and calling it
-/

import ScriptMachine.Proofs.Machine.Dispatching

namespace ScriptMachine

open Heap

/-- The machines are equal but for their heaps, and what the first one needs is the same in both. -/
structure Machine.Indistinct (m m' : Machine) : Prop where
  rest : m' = { m with heap := m'.heap }
  needed : ∀ h, m.heap.Reach m.roots h → m'.heap.get? h = m.heap.get? h

/-- The actions stop with the same error, or both go through and lead to machines that are equal in
all that they need. -/
def Exec.EndsAlike : EStateM.Result Stop Machine PUnit → EStateM.Result Stop Machine PUnit → Prop
  | .ok _ m, .ok _ m' => m.Indistinct m'
  | .error stop _, .error stop' _ => stop = stop'
  | _, _ => False

/-- Put the top value between what lies below and the arguments, and call it. -/
def Exec.callBetween (below arguments : Array Value) : Exec Unit := do
  let callee ← peek 0
  modify ({ · with stack := below.push callee ++ arguments })
  perform .call arguments.size 0

/-- Let an action replace the top of a stack first, and call what it leaves. -/
def Exec.inTwoSteps (stack : Array Value) (replace : Exec Unit) (below arguments : Array Value) :
    Exec Unit := do
  modify ({ · with stack })
  replace
  callBetween below arguments

namespace Heap

variable {heap after : Heap} {object : Object} {roots needed : List Handle} {h b : Handle}

theorem Reach.of_reach (all : ∀ k ∈ needed, heap.contains k → heap.Reach roots k)
    (reach : heap.Reach needed h) : heap.Reach roots h := by
  induction reach with
  | root mem live => exact all _ mem live
  | reference _ found mem live ih => exact .reference ih found mem live

/-- If what is needed stays, it is as it was, and so is all that it refers to. -/
theorem Allocated.get?_of_reach (allocated : heap.Allocated object roots b after)
    (stay : ∀ k ∈ needed, heap.contains k → k ∈ roots ++ object.references ∨ after.contains k)
    (reach : heap.Reach needed h) : after.get? h = heap.get? h := by
  have other {k : Handle} (live : heap.contains k) : k ≠ b :=
    allocated.ne_of_lt (lt_size_of_contains live)
  have same {k : Handle} (live : heap.contains k) (there : after.contains k) :
      after.get? k = heap.get? k := by
    rw [Heap.get?, Heap.get?, allocated.old k (other live) there]
  refine same reach.live ?_
  induction reach with
  | root mem live =>
    rcases stay _ mem live with kept | there
    · rw [contains, allocated.kept _ (.root kept live)]
      exact live
    · exact there
  | reference reach found mem live ih =>
    exact allocated.closed _ _ _ (other reach.live) ((same reach.live ih).trans found) mem live

/-- A closure is the same one as before, and what is none does not become one, unless it is the new
object. -/
theorem Allocated.closureFunction?_eq (allocated : heap.Allocated object roots b after)
    (plain : object.kind ≠ .closure) (mem : h ∈ object.references) :
    after.closureFunction? h = heap.closureFunction? h := by
  by_cases live : heap.contains h
  · have kept := allocated.get?_kept (.root (List.mem_append_right _ mem) live)
    rw [Heap.closureFunction?, Heap.closureFunction?, kept]
  · have before : heap.get? h = none := by
      rw [Heap.get?, Option.map_eq_none_iff]
      simpa [contains] using live
    rw [Heap.closureFunction?, Heap.closureFunction?, before]
    cases found : after.get? h with
    | none => rfl
    | some o =>
      by_cases new : h = b
      · rw [new, allocated.get?] at found
        cases found
        cases object <;> first | rfl | exact absurd rfl plain
      · exact absurd (contains_of_get? (allocated.get?_old new found)) live

end Heap

namespace Machine

variable {m : Machine} {h : Handle}

theorem Indistinct.refl (m : Machine) : m.Indistinct m := ⟨rfl, fun _ _ => rfl⟩

/-- A frame keeps its closure and its function alive. -/
theorem mem_roots_pushFrame {f : Frame} (mem : h ∈ roots { m with frames := f :: m.frames }) :
    h ∈ m.roots ∨ h = f.closure ∨ h = f.function := by
  simp only [roots, List.flatMap_cons] at mem ⊢
  grind

/-- What is kept alive lies on the stack, or is kept alive without it. -/
theorem mem_roots_withStack (mem : h ∈ m.roots) (stack : Array Value) :
    (∃ v ∈ m.stack, v.handle? = some h) ∨ h ∈ roots { m with stack } := by
  simp only [roots, List.mem_append, List.mem_filterMap, Array.mem_toList_iff] at mem ⊢
  grind

end Machine

namespace Exec

open Machine

variable {m m' : Machine} {below arguments rest : Array Value} {r v : Value} {h k b : Handle}
  {key : Key}

theorem EndsAlike.refl (result : EStateM.Result Stop Machine PUnit) :
    EndsAlike result result := by
  cases result with
  | ok _ m => exact Indistinct.refl m
  | error => rfl

/-! ## The callee among the values of the stack -/

theorem size_below_push (below arguments : Array Value) (r : Value) :
    (below.push r ++ arguments).size - 1 - arguments.size = below.size := by
  simp only [Array.size_append, Array.size_push]
  omega

theorem lt_size_below_push (below arguments : Array Value) (r : Value) :
    arguments.size < (below.push r ++ arguments).size := by
  simp only [Array.size_append, Array.size_push]
  omega

theorem getElem?_below_push (below arguments : Array Value) (r : Value) :
    (below.push r ++ arguments)[below.size]? = some r := by grind

theorem setIfInBounds_below_push (below arguments : Array Value) (r v : Value) :
    (below.push r ++ arguments).setIfInBounds below.size v = below.push v ++ arguments := by grind

/-- The instruction calls the value below the arguments. -/
theorem perform_call_eq (stack : m.stack = below.push v ++ arguments) :
    perform .call arguments.size 0 none m = callValue v arguments.size none m := by
  refine bind_eq (peek_eq_getElem? ?_ ?_) _
  · rw [stack]
    exact lt_size_below_push below arguments v
  · rw [stack, size_below_push, getElem?_below_push]

/-! ## Bound methods -/

/-- Calling a bound method is calling the method on its receiver. It does not matter that there is
one more object, and which objects have been freed for it, as long as nothing on the stack has
been. -/
theorem endsAlike_of_bound {c : Custody} {roots : List Handle} {after : Heap}
    (sound : m.heap.Sound c) (stack : m.stack = below.push r ++ arguments)
    (allocated : m.heap.Allocated (.bound r k) roots b after)
    (stay : ∀ h ∈ m.roots, m.heap.contains h →
      h ∈ roots ++ (Object.bound r k).references ∨ after.contains h) :
    EndsAlike (call k arguments.size none m) (perform .call arguments.size 0 none
      { m with heap := after, stack := below.push (.object b) ++ arguments }) := by
  have inside : arguments.size < m.stack.size := stack ▸ lt_size_below_push below arguments r
  let bound : Machine := { m with heap := after, stack := below.push (.object b) ++ arguments }
  have called : perform .call arguments.size 0 none bound =
      call k arguments.size none { m with heap := after } := by
    rw [perform_call_eq (m := bound) rfl, callValue_of_bound (m := bound)
      (lt_size_below_push ..) allocated.get?]
    change call k arguments.size none { m with
      heap := after
      stack := (below.push (.object b) ++ arguments).setIfInBounds
        ((below.push (.object b) ++ arguments).size - 1 - arguments.size) r } = _
    rw [size_below_push, setIfInBounds_below_push, ← stack]
  rw [called]
  have closures : after.closureFunction? k = m.heap.closureFunction? k :=
    allocated.closureFunction?_eq nofun (by simp [Object.references])
  cases closure : m.heap.closureFunction? k with
  | none =>
    rw [call_of_not_closure closure,
      call_of_not_closure (m := { m with heap := after }) (closures.trans closure)]
    rfl
  | some f =>
    obtain ⟨upvalues, reserved, object⟩ := get?_of_closureFunction? closure
    obtain ⟨g, found, object'⟩ := function?_of_kind? (sound.object k _ object).1
    have kept {h : Handle} (reach : m.heap.Reach (m.roots ++ [k]) h) :
        after.get? h = m.heap.get? h := by
      refine allocated.get?_of_reach (fun h mem live => ?_) reach
      rcases List.mem_append.mp mem with mem | mem
      · exact stay h mem live
      · exact .inl (by simp [Object.references, List.mem_singleton.mp mem])
    have keepsClosure : m.heap.Reach (m.roots ++ [k]) k :=
      .root (by simp) (contains_of_get? object)
    have keepsFunction : m.heap.Reach (m.roots ++ [k]) f :=
      keepsClosure.reference object List.mem_cons_self (contains_of_get? object')
    have found' : after.function? f = some g := by
      rw [Heap.function?, kept keepsFunction]
      exact found
    rw [call_of_closure inside closure found, call_of_closure (m := { m with heap := after })
      inside (closures.trans closure) found']
    by_cases arity : arguments.size = g.arity
    · rw [if_neg (not_not.mpr arity), if_neg (not_not.mpr arity)]
      by_cases full : m.config.framesMax ≤ m.frames.length
      · rw [if_pos full, if_pos full]
        rfl
      · rw [if_neg full, if_neg full]
        refine ⟨rfl, fun h reach => kept (reach.of_reach fun h mem live => ?_)⟩
        rcases mem_roots_pushFrame mem with mem | rfl | rfl
        · exact .root (List.mem_append_left _ mem) live
        · exact keepsClosure
        · exact keepsFunction
    · rw [if_pos arity, if_pos arity]
      rfl

/-! ## Two steps -/

/-- What follows an action depends on how it ends. -/
theorem bind_congr {α β : Type} {x y : Exec α} (same : x none m = y none m') (f : α → Exec β) :
    (x >>= f) none m = (y >>= f) none m' := by
  change EStateM.bind (x none) (fun a => f a none) m = EStateM.bind (y none) (fun a => f a none) m'
  rw [EStateM.bind, EStateM.bind, same]

theorem inTwoSteps_eq (stack : Array Value) (replace : Exec Unit) (below arguments : Array Value)
    (m : Machine) : inTwoSteps stack replace below arguments none m =
      (replace >>= fun _ => callBetween below arguments) none { m with stack } := rfl

theorem callBetween_eq (top : m.stack.back? = some v) (below arguments : Array Value) :
    callBetween below arguments none m = perform .call arguments.size 0 none
      { m with stack := below.push v ++ arguments } := bind_eq (peek_eq top) _

/-- Calling a method is binding it first and calling the bound method later. -/
theorem endsAlike_bindMethod {c : Custody} {cls : Handle} (sound : m.heap.Sound c)
    (stack : m.stack = below.push r ++ arguments) (limit : rest.size < m.config.stackLimit)
    (stay : ∀ v ∈ below ++ arguments, v ∈ rest ∨ ∀ m',
      bindMethod cls key none { m with stack := rest.push r } = .ok ⟨⟩ m' →
        ∀ h, v.handle? = some h → m.heap.contains h → m'.heap.contains h) :
    EndsAlike (invokeFrom cls key arguments.size none m)
      ((bindMethod cls key >>= fun _ => callBetween below arguments) none
        { m with stack := rest.push r }) := by
  let m₁ : Machine := { m with stack := rest.push r }
  have top : m₁.stack.back? = some r := Array.back?_push ..
  have binds := bindMethod_eq (m := m₁) (by rw [Array.size_push]; exact limit) top cls key
  have sameHeap : m₁.heap.method? cls key = m.heap.method? cls key := rfl
  rw [sameHeap] at binds
  rw [invokeFrom_eq]
  cases method : m.heap.method? cls key with
  | none =>
    rw [method] at binds
    rw [bind_error (binds.trans rfl)]
    rfl
  | some k =>
    rw [method] at binds
    let bound : Value := .object (m₁.allocate (.bound r k) []).1
    have calls := callBetween_eq (m := { (m₁.allocate (.bound r k) []).2 with
      stack := m₁.stack.pop.push bound }) (Array.back?_push ..) below arguments
    rw [bind_eq binds, calls]
    refine endsAlike_of_bound sound stack (allocated_allocate sound.clean (.bound r k) _) ?_
    intro h mem live
    rcases mem_roots_withStack mem (rest.push r) with ⟨v, mem, handle⟩ | mem
    · rw [stack, Array.mem_append, Array.mem_push] at mem
      by_cases receiver : v = r
      · exact .inl (by simp [Object.references, ← receiver, handle])
      · have value : v ∈ below ++ arguments := Array.mem_append.mpr (by tauto)
        rcases stay v value with kept | there
        · have : h ∈ m₁.roots := mem_roots_stack (Array.mem_push.mpr (.inl kept)) handle
          exact .inl (by simp [this])
        · exact .inr (there _ binds h handle live)
    · exact .inl (by simp [m₁, mem])

/-- Invoking a property of an instance is reading the property and calling it. -/
theorem endsAlike_invoke {c : Custody} {cls : Handle} {fields : Table} (sound : m.heap.Sound c)
    (limit : m.stack.size ≤ m.config.stackLimit)
    (stack : m.stack = below.push (.object h) ++ arguments)
    (found : m.heap.instance? h = some (cls, fields)) (key : Key) :
    EndsAlike (invoke key arguments.size none m)
      (inTwoSteps ((below ++ arguments).push (.object h)) (getProperty key) below arguments
        none m) := by
  let m₁ : Machine := { m with stack := (below ++ arguments).push (.object h) }
  have sizes : m₁.stack.size = m.stack.size := by
    simp only [m₁, stack, Array.size_push, Array.size_append]
    omega
  have limit₁ : m₁.stack.size ≤ m₁.config.stackLimit := sizes ▸ limit
  have top : m₁.stack.back? = some (.object h) := Array.back?_push ..
  have reads := getProperty_eq (m := m₁) top found key
  have inside : arguments.size < m.stack.size := stack ▸ lt_size_below_push below arguments _
  have invokes := invoke_eq inside
    (by rw [stack, size_below_push, getElem?_below_push]) found key
  simp only [stack, size_below_push, setIfInBounds_below_push] at invokes
  rw [inTwoSteps_eq]
  cases field : fields.get? key with
  | some v =>
    rw [field] at reads invokes
    let m₂ : Machine := { m₁ with stack := m₁.stack.pop.push v }
    have replaces : getProperty key none m₁ = .ok ⟨⟩ m₂ :=
      reads.trans (replaceTop_eq limit₁ top v)
    have calls : callBetween below arguments none m₂ = callValue v arguments.size none
        { m with stack := below.push v ++ arguments } :=
      (callBetween_eq (m := m₂) (Array.back?_push ..) below arguments).trans (perform_call_eq rfl)
    rw [invokes, bind_eq replaces, calls]
    exact .refl _
  | none =>
    rw [field] at reads invokes
    rw [invokes, bind_congr reads]
    refine endsAlike_bindMethod sound stack ?_ fun v mem => .inl mem
    have : (below ++ arguments).size < m₁.stack.size := by simp [m₁]
    omega

/-- Finding the name of a property has nothing to do with the stack. -/
theorem exists_name_eq (m : Machine) (index : Nat) : ∃ result : Except Stop Key, ∀ stack,
    name index none { m with stack } = match result with
      | .ok key => .ok key { m with stack }
      | .error stop => .error stop { m with stack } := by
  cases head : m.frames.head? with
  | none =>
    refine ⟨.error (.broken .noFrame), fun stack => bind_error (bind_error (bind_error ?_ _) _) _⟩
    change orBroken .noFrame m.frames.head? none { m with stack } = _
    rw [head]
    rfl
  | some f =>
    cases found : m.heap.function? f.function with
    | none => exact ⟨.error (.broken .lostFunction), fun stack =>
        bind_error (bind_error (function_of_lost (m := { m with stack }) head found) _) _⟩
    | some function =>
      have constants (stack : Array Value) : constant index none { m with stack } =
          orMalformed (.constantOutOfRange index) (function.chunk.constant? index) none
            { m with stack } := bind_eq (function_eq (m := { m with stack }) head found) _
      cases at_ : function.chunk.constant? index with
      | none =>
        rw [at_] at constants
        exact ⟨.error (.failed (.malformed (.constantOutOfRange index))), fun stack =>
          bind_error (constants stack) _⟩
      | some v =>
        rw [at_] at constants
        have looked (stack : Array Value) : name index none { m with stack } =
            orMalformed (.constantNotString index) (v.handle?.bind m.heap.key?) none
              { m with stack } := bind_eq (constants stack) _
        cases eq : v.handle?.bind m.heap.key? with
        | none => exact ⟨.error (.failed (.malformed (.constantNotString index))), fun stack =>
            (looked stack).trans (by rw [eq]; rfl)⟩
        | some key => exact ⟨.ok key, fun stack => (looked stack).trans (by rw [eq]; rfl)⟩

theorem class?_eq (v : Value) (m : Machine) : class? v none m =
    .ok (v.handle?.bind fun h => (m.heap.methods? h).bind fun t => some (h, t)) m := rfl

theorem popClass_eq (top : m.stack.back? = some v) : popClass none m =
    match v.handle?.bind fun h => (m.heap.methods? h).map fun _ => h with
      | some cls => .ok cls { m with stack := m.stack.pop }
      | none => .error (.failed .superclassMustBeClass) { m with stack := m.stack.pop } := by
  refine (bind_eq (pop_eq top) _).trans ?_
  refine (bind_eq (class?_eq v _) _).trans ?_
  cases v.handle? with
  | none => rfl
  | some h =>
    rw [Option.bind_some, Option.bind_some]
    cases m.heap.methods? h <;> rfl

/-- Invoking a method of a superclass is reading it and calling it. -/
theorem endsAlike_superInvoke {c : Custody} {superclass : Value} (sound : m.heap.Sound c)
    (limit : m.stack.size ≤ m.config.stackLimit)
    (stack : m.stack = (below.push r ++ arguments).push superclass) (a b : Nat)
    (stay : ∀ m', perform .getSuper a b none { m with stack := (below.push r).push superclass } =
      .ok ⟨⟩ m' →
        ∀ v ∈ arguments, ∀ h, v.handle? = some h → m.heap.contains h → m'.heap.contains h) :
    EndsAlike (perform .superInvoke a arguments.size none m)
      (inTwoSteps ((below.push r).push superclass) (perform .getSuper a b) below arguments
        none m) := by
  let m₀ : Machine := { m with stack := below.push r ++ arguments }
  let m₁ : Machine := { m with stack := (below.push r).push superclass }
  obtain ⟨result, named⟩ := exists_name_eq m a
  rw [inTwoSteps_eq]
  cases result with
  | error stop =>
    have invokes : perform .superInvoke a arguments.size none m = _ := bind_error (named m.stack) _
    have reads : perform .getSuper a b none m₁ = _ := bind_error (named m₁.stack) _
    rw [invokes, bind_error reads]
    rfl
  | ok key =>
    have invokes : perform .superInvoke a arguments.size none m =
        (popClass >>= fun cls => invokeFrom cls key arguments.size) none m :=
      bind_eq (named m.stack) _
    have reads : perform .getSuper a b none m₁ =
        (popClass >>= fun cls => bindMethod cls key) none m₁ := bind_eq (named m₁.stack) _
    have top : m.stack.back? = some superclass := stack ▸ Array.back?_push ..
    have pops := popClass_eq top
    have pops₁ := popClass_eq (m := m₁) (Array.back?_push ..)
    rw [stack, Array.pop_push] at pops
    change _ = match superclass.handle?.bind fun h => (m.heap.methods? h).map fun _ => h with
      | some _ => _ | none => _ at pops₁
    rw [Array.pop_push] at pops₁
    cases isClass : superclass.handle?.bind fun h => (m.heap.methods? h).map fun _ => h with
    | none =>
      rw [isClass] at pops pops₁
      rw [invokes, bind_error pops, bind_error (reads.trans (bind_error pops₁ _))]
      rfl
    | some cls =>
      rw [isClass] at pops pops₁
      have binds : perform .getSuper a b none m₁ = bindMethod cls key none
          { m₀ with stack := below.push r } := reads.trans (bind_eq pops₁ _)
      rw [invokes, bind_eq pops, bind_congr binds]
      refine endsAlike_bindMethod (m := m₀) sound rfl ?_ fun v mem => ?_
      · have : below.size < m.stack.size := by simp [stack]; omega
        exact Nat.lt_of_lt_of_le this limit
      · refine (Array.mem_append.mp mem).imp_right fun mem m' ran => ?_
        exact stay m' (binds.trans ran) v mem

end Exec

namespace Machine

variable {m : Machine}

/-- Instructions that invoke a method agree with their two steps. Where an instance lies below the
arguments, invoking a property of it is reading the property, with the instance brought to the top
for that, and calling what this leaves in its place. Where a superclass lies on top, invoking one of
its methods is reading it for the receiver before the arguments are there, if these are not freed by
that, and calling it later. Either both ways fail with the same error, or both go through, and then
stacks, frames, globals and open captured variables are the same, and all objects that are
needed. -/
theorem Occurs.fused_calls (occurs : m.Occurs) (below arguments : Array Value) :
    (∀ h cls fields key, m.stack = below.push (.object h) ++ arguments →
      m.heap.instance? h = some (cls, fields) →
      Exec.EndsAlike (Exec.invoke key arguments.size none m)
        (Exec.inTwoSteps ((below ++ arguments).push (.object h)) (Exec.getProperty key) below
          arguments none m)) ∧
    ∀ receiver superclass a b, m.stack = (below.push receiver ++ arguments).push superclass →
      (∀ m', Exec.perform .getSuper a b none
          { m with stack := (below.push receiver).push superclass } = .ok ⟨⟩ m' →
        ∀ v ∈ arguments, ∀ h, v.handle? = some h → m.heap.contains h → m'.heap.contains h) →
      Exec.EndsAlike (Exec.perform .superInvoke a arguments.size none m)
        (Exec.inTwoSteps ((below.push receiver).push superclass) (Exec.perform .getSuper a b) below
          arguments none m) := by
  have sound := occurs.intact.heap
  have limit := occurs.regular.stack
  constructor
  · intro h cls fields key stack found
    exact Exec.endsAlike_invoke sound limit stack found key
  · intro receiver superclass a b stack stay
    exact Exec.endsAlike_superInvoke sound limit stack a b stay

/-- A machine that collects before every allocation. A script has made a class with a method for one
argument, and an instance of it; this, a string and the class lie on the stack. -/
def invoking : Machine :=
  let m := start { diagnostics := { stressCollections := true } } default .zero
  let (name, m) := m.intern "m" []
  let (g, m) := m.allocate (.function ⟨none, 1, 0, default⟩) [⟨3⟩]
  let code := #[Opcode.newClass.byte, 0, Opcode.closure.byte, 1, Opcode.method.byte, 0,
    Opcode.getLocal.byte, 1, Opcode.call.byte, 0, Opcode.constant.byte, 0, Opcode.getLocal.byte, 1]
  let script : Chunk Value := ⟨code, #[], #[.object name, .object g]⟩
  let (function, m) := m.allocate (.function (.script script)) []
  ((m.left (enter function) none).steps 7).2

/-- With two arguments invoking the method fails. With one, the method of the class is entered. -/
theorem fused_calls_invoking :
    let key : Key := ⟨⟨3⟩, Hash.ofText "m"⟩
    invoking.stopped? (Exec.invoke key 2) none = some (.failed (.arityMismatch 1 2)) ∧
    Exec.EndsAlike (Exec.invoke key 2 none invoking)
      (Exec.inTwoSteps #[.object ⟨6⟩, .object ⟨7⟩, .object ⟨3⟩, .object ⟨7⟩, .object ⟨9⟩]
        (Exec.getProperty key) #[.object ⟨6⟩, .object ⟨7⟩] #[.object ⟨3⟩, .object ⟨7⟩]
        none invoking) ∧
    invoking.stopped? (Exec.perform .superInvoke 0 1) none = none ∧
    Exec.EndsAlike (Exec.perform .superInvoke 0 1 none invoking)
      (Exec.inTwoSteps #[.object ⟨6⟩, .object ⟨7⟩, .object ⟨9⟩, .object ⟨7⟩]
        (Exec.perform .getSuper 0 0) #[.object ⟨6⟩, .object ⟨7⟩] #[.object ⟨3⟩] none invoking) := by
  intro key
  have occurs : invoking.Occurs := by
    refine Occurs.steps (.left_enter ?_ (by decide +kernel)) (by decide +kernel)
    exact (((Occurs.start _ _ _).host (.intern "m" [])).host (.function _ [⟨3⟩])).host
      (.function _ [])
  have stack : invoking.stack =
      #[.object ⟨6⟩, .object ⟨7⟩, .object ⟨9⟩, .object ⟨3⟩, .object ⟨7⟩] := by decide +kernel
  have cls : (invoking.heap.instance? ⟨9⟩).map Prod.fst = some ⟨7⟩ := by decide +kernel
  obtain ⟨⟨_, fields⟩, found, rfl⟩ := Option.map_eq_some_iff.mp cls
  refine ⟨by decide +kernel, ?_, by decide +kernel, ?_⟩
  · exact (occurs.fused_calls #[.object ⟨6⟩, .object ⟨7⟩] #[.object ⟨3⟩, .object ⟨7⟩]).1 ⟨9⟩ ⟨7⟩
      fields key stack found
  · refine (occurs.fused_calls #[.object ⟨6⟩, .object ⟨7⟩] #[.object ⟨3⟩]).2 (.object ⟨9⟩)
      (.object ⟨7⟩) 0 0 stack fun m' ran v mem h handle _ => ?_
    -- The string is a constant of the script, so it is not freed when the method is bound.
    have kept : (left { invoking with
        stack := (#[Value.object ⟨6⟩, .object ⟨7⟩].push (.object ⟨9⟩)).push (.object ⟨7⟩) }
        (Exec.perform .getSuper 0 0) none).heap.contains ⟨3⟩ := by decide +kernel
    rw [left, ran] at kept
    obtain rfl : v = .object ⟨3⟩ := by simpa using mem
    exact Option.some.inj handle ▸ kept

end Machine

end ScriptMachine
