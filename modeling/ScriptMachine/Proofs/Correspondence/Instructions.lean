/-
# Two runs of an instruction

Every instruction does alike on related machines: it leaves related machines, or
stops in such for the same reason. The argument is the same for all of them.
What an instruction looks at is linked, so that it goes the same way in both
runs, and what it puts into the machines is linked again.

A class whose initializer runs on a new instance is the one place where an
instruction goes on to use a handle that only the new object keeps: the
initializer is found before the instance takes the place of the class.

## Main definitions

* `Exec.InStep` — two runs have come to related machines with a frame
* `Machine.Respectful` — the host function that is called next, if any, respects pairings

## Main results

* `Agree.perform`, `Agree.step`, `Agree.enter` — instructions, steps and entries do alike
-/

import ScriptMachine.Proofs.Correspondence.Actions
import ScriptMachine.Proofs.Machine.Instructions

namespace ScriptMachine

open Heap Machine

/-- The host function that the next instruction calls, if any, respects pairings. -/
def Machine.Respectful (m : Machine) : Prop :=
  ∀ callee count native, m.nextCallee? = some (callee, count) → m.IsNative callee native →
    native.Respects

namespace Exec

variable {origin : Origin} {p : Pairing} {m₁ m₂ : Machine} {v₁ v₂ : Value}
  {h₁ h₂ cls₁ cls₂ : Handle} {key₁ key₂ : Key} {slot count : Nat}

/-- What holds after an instruction: the runs have come to related machines. -/
def InStep (origin : Origin) (_ _ : Unit) (m₁ m₂ : Machine) : Prop :=
  (∃ p, Related origin p m₁ m₂) ∧ m₁.frames ≠ []

namespace Agree

theorem settle (related : Related origin p m₁ m₂) (framed : m₁.frames ≠ []) :
    Agree origin (Pure.pure ()) (Pure.pure ()) m₁ m₂ (InStep origin) := ⟨⟨p, related⟩, framed⟩

theorem pushSettled (related : Related origin p m₁ m₂) (framed : m₁.frames ≠ [])
    (same : v₁.Matches (Links p m₁ m₂) v₂) :
    Agree origin (Exec.push v₁) (Exec.push v₂) m₁ m₂ (InStep origin) :=
  push related same fun related => ⟨⟨p, related⟩, framed⟩

/-- The values on top of the stacks give way to others. -/
theorem replaceTop (related : Related origin p m₁ m₂) (framed : m₁.frames ≠ [])
    (same : v₁.Matches (Links p m₁ m₂) v₂) :
    Agree origin (do Functor.discard Exec.pop; Exec.push v₁)
      (do Functor.discard Exec.pop; Exec.push v₂) m₁ m₂ (InStep origin) := by
  apply bind
  apply discard
  apply pop related
  intro _ _ _ related
  exact pushSettled related framed same

/-- The two values on top of each stack give way to another one. -/
theorem replaceTwo (related : Related origin p m₁ m₂) (framed : m₁.frames ≠ [])
    (same : v₁.Matches (Links p m₁ m₂) v₂) :
    Agree origin (do Functor.discard Exec.pop; Functor.discard Exec.pop; Exec.push v₁)
      (do Functor.discard Exec.pop; Functor.discard Exec.pop; Exec.push v₂) m₁ m₂
      (InStep origin) := by
  apply bind
  apply discard
  apply pop related
  intro _ _ _ related
  exact replaceTop related framed same

/-! ## Calls -/

theorem call (related : Related origin p m₁ m₂) (linked : Links p m₁ m₂ h₁ h₂) :
    Agree origin (Exec.call h₁ count) (Exec.call h₂ count) m₁ m₂ (InStep origin) := by
  apply bind
  apply get
  apply bind
  apply orFail related (related.heaps.closureFunction? linked)
  intro f₁ f₂ found _ function
  apply bind
  apply get
  obtain ⟨upvalues, reserved, object⟩ := get?_of_closureFunction? found
  have kind := (related.intact₁.heap.object h₁ _ object).1
  obtain ⟨g, at_, -⟩ := function?_of_kind? kind
  -- A closure has a function, so neither machine is broken here.
  have present : m₁.heap.function? f₁ ≠ none := by
    rw [at_]
    exact Option.some_ne_none g
  apply bind
  apply orBroken (related.heaps.function? function) present
  intro g₁ g₂ _ _ functions
  rw [functions.arity]
  refine guard related Iff.rfl fun _ => bind (get (guard related ?_ fun _ => ?_))
  · rw [related.framesMax, related.frames.length_eq]
  · refine bind (calleeSlot related fun _ => modify ⟨⟨p, ?_⟩, List.cons_ne_nil _ _⟩)
    exact related.pushFrame ⟨linked, function, rfl, rfl⟩ (kind?_of_get? object) kind

/-- A method of a class is kept by a new instance of the class. -/
theorem contains_method {heap after : Heap} {cls name h method : Handle} {methods : Table}
    {key : Key} {roots : List Handle} (sound : heap.Sound .live)
    (allocated : heap.Allocated (.inst cls .empty) roots h after)
    (found : heap.get? cls = some (.cls name methods)) (key? : heap.key? key.handle = some key)
    (bound : methods.get? key = some (.object method)) : after.contains method := by
  have table := (sound.object cls _ found).2
  have entry := (table.lawful.get?_eq_some_iff (table.agrees key?)).mp bound
  have mem : method ∈ (Object.cls name methods).references :=
    List.mem_cons_of_mem _ (Object.mem_tableReferences_iff.mpr ⟨key, _, entry, .inr rfl⟩)
  have live : heap.contains method := (sound.object cls _ found).contains mem
  have root : cls ∈ roots ++ (Object.inst cls .empty).references :=
    List.mem_append_right _ List.mem_cons_self
  refine (allocated.keeps ?_).contains live
  exact .reference (.root root (contains_of_get? found)) found mem live

theorem construct {name₁ name₂ : Handle} {methods₁ methods₂ : Table}
    (related : Related origin p m₁ m₂) (framed : m₁.frames ≠ []) (inside : slot < m₁.stack.size)
    (linked : Links p m₁ m₂ cls₁ cls₂) (found₁ : m₁.heap.get? cls₁ = some (.cls name₁ methods₁))
    (found₂ : m₂.heap.get? cls₂ = some (.cls name₂ methods₂))
    (same : methods₁.Matches (Links p m₁ m₂) methods₂) :
    Agree origin (Exec.construct cls₁ methods₁ slot count) (Exec.construct cls₂ methods₂ slot count)
      m₁ m₂ (InStep origin) := by
  have sound₁ := (related.intact₁.heap.object cls₁ _ found₁).2
  have sound₂ := (related.intact₂.heap.object cls₂ _ found₂).2
  have named := related.initNamed
  have initializers := Alike.get? ⟨same, sound₁, sound₂⟩ related.heaps named
  refine bind (get (bind (allocate related (.inst linked (.empty _)) (by simp [Object.kind])
    (by simp) ⟨kind?_of_get? found₁, .empty _ _⟩ ⟨kind?_of_get? found₂, .empty _ _⟩ ?_)))
  intro q h₁ h₂ after₁ after₂ le allocated₁ allocated₂ related' linked'
  -- The initializers outlive the allocation of the instances, as these refer to their classes.
  have kept₁ {method : Handle} (bound : methods₁.get? m₁.initKey = some (.object method)) :=
    contains_method related.intact₁.heap allocated₁ found₁ named.found₁ bound
  have kept₂ {method : Handle} (bound : methods₂.get? m₂.initKey = some (.object method)) :=
    contains_method related.intact₂.heap allocated₂ found₂ named.found₂ bound
  apply bind
  apply setSlot related' inside (.object linked')
  intro related'
  generalize methods₁.get? m₁.initKey = initializer₁ at initializers kept₁
  generalize methods₂.get? m₂.initKey = initializer₂ at initializers kept₂
  cases initializers with
  | none => exact ite Iff.rfl (fun _ => fail related') fun _ => settle related' framed
  | some same =>
    cases same with
    | nil | bool | number => exact malformed related'
    | object linked => exact call related' ⟨le _ _ linked.paired, kept₁ rfl, kept₂ rfl⟩

theorem callValue (related : Related origin p m₁ m₂) (framed : m₁.frames ≠ [])
    (same : v₁.Matches (Links p m₁ m₂) v₂)
    (respects : ∀ native, m₁.IsNative v₁ native → native.Respects) :
    Agree origin (Exec.callValue v₁ count) (Exec.callValue v₂ count) m₁ m₂ (InStep origin) := by
  apply bind
  apply orFail related same.handle?
  intro h₁ h₂ eq _ linked
  apply bind
  apply calleeSlot related
  intro below
  apply bind
  apply get
  have inside : m₁.stack.size - 1 - count < m₁.stack.size := by omega
  obtain ⟨o₁, o₂, found₁, found₂, matching⟩ := related.heaps.get? linked
  rw [found₁, found₂]
  -- The kinds of the callees agree, so both are called in the same way.
  cases matching with
  | bound receiver method =>
    exact bind (setSlot related inside receiver fun related => call related method)
  | cls named same => exact construct related framed inside linked found₁ found₂ same
  | closure => exact call related linked
  | native native =>
    apply bind
    apply valuesAbove related inside
    intro values₁ values₂ values
    apply bind
    apply get
    -- The links are one to one, so that the host function respects them.
    have result := respects native ⟨h₁, eq, found₁⟩ (Links p m₁ m₂) related.heaps.unique m₁.uptime
      m₂.uptime values₁ values₂ values
    exact bind (truncate related fun related => pushSettled related framed result)
  | _ => exact fail related

theorem returnValue (related : Related origin p m₁ m₂) (framed : m₁.frames ≠ []) :
    Agree origin Exec.returnValue Exec.returnValue m₁ m₂ (InStep origin) := by
  apply bind
  apply pop related
  intro v₁ v₂ same related
  refine bind (frame related framed fun f₁ f₂ _ _ frames => bind (modify (bind (modify ?_))))
  have left := related.popFrame
  -- Closing captured variables frees neither result.
  have result : v₁.Matches (Links p (Machine.closeFrom { m₁ with
      stack := m₁.stack.pop, frames := m₁.frames.tail } f₁.base) (Machine.closeFrom { m₂ with
      stack := m₂.stack.pop, frames := m₂.frames.tail } f₁.base)) v₂ :=
    same.imp fun _ _ _ _ linked => left.links_closeFrom f₁.base linked
  rw [← frames.base]
  apply bind
  apply truncate (left.closeFrom f₁.base)
  intro related
  apply bind
  apply get
  refine ite ?_ (fun _ => bind ⟨p, related, .finished result⟩) fun more => ?_
  · rw [List.isEmpty_iff_length_eq_zero, List.isEmpty_iff_length_eq_zero, related.frames.length_eq]
  · exact pushSettled related (by simpa using more) result

/-! ## Methods -/

theorem method? {post : Option Handle → Option Handle → Machine → Machine → Prop}
    (related : Related origin p m₁ m₂) (linked : Links p m₁ m₂ cls₁ cls₂)
    (named : Named p m₁.heap m₂.heap key₁ key₂)
    (holds : ∀ o₁ o₂, Option.Rel (Links p m₁ m₂) o₁ o₂ → post o₁ o₂ m₁ m₂) :
    Agree origin (Exec.method? cls₁ key₁) (Exec.method? cls₂ key₂) m₁ m₂ post := by
  refine bind (get (pure (holds _ _ ?_)))
  obtain ⟨o₁, o₂, found₁, found₂, matching⟩ := related.heaps.get? linked
  simp only [Heap.methods?, found₁, found₂]
  cases matching with
  | @cls _ _ methods₁ methods₂ _ same =>
    have sound₁ := (related.intact₁.heap.object cls₁ _ found₁).2
    have sound₂ := (related.intact₂.heap.object cls₂ _ found₂).2
    have values := Alike.get? ⟨same, sound₁, sound₂⟩ related.heaps named
    simp only [Option.bind_some]
    generalize methods₁.get? key₁ = method₁ at values ⊢
    generalize methods₂.get? key₂ = method₂ at values ⊢
    cases values with
    | none => exact .none
    | some same => exact same.handle?
  | _ => exact .none

theorem undefinedProperty {α : Type} {post : α → α → Machine → Machine → Prop}
    (related : Related origin p m₁ m₂) (named : Named p m₁.heap m₂.heap key₁ key₂) :
    Agree origin (Exec.undefinedProperty key₁) (Exec.undefinedProperty key₂) m₁ m₂ post :=
  bind (textOf related named fun _ => fail related)

theorem invokeFrom (related : Related origin p m₁ m₂) (linked : Links p m₁ m₂ cls₁ cls₂)
    (named : Named p m₁.heap m₂.heap key₁ key₂) :
    Agree origin (Exec.invokeFrom cls₁ key₁ count) (Exec.invokeFrom cls₂ key₂ count) m₁ m₂
      (InStep origin) := by
  apply bind
  apply method? related linked named
  intro o₁ o₂ methods
  cases methods with
  | none => exact undefinedProperty related named
  | some linked => exact call related linked

theorem invoke (related : Related origin p m₁ m₂) (framed : m₁.frames ≠ [])
    (named : Named p m₁.heap m₂.heap key₁ key₂)
    (respects : ∀ receiver h owner fields v native,
      m₁.stack[m₁.stack.size - 1 - count]? = some receiver → receiver.handle? = some h →
        m₁.heap.get? h = some (.inst owner fields) → fields.get? key₁ = some v →
          m₁.IsNative v native → native.Respects) :
    Agree origin (Exec.invoke key₁ count) (Exec.invoke key₂ count) m₁ m₂ (InStep origin) := by
  apply bind
  apply peek related
  intro receiver _ same at_ _
  apply bind
  apply instance? related same
  intro o₁ o₂ instances handle
  apply bind
  apply orFail related instances
  rintro ⟨h, owner, fields⟩ ⟨_, _, fields'⟩ eq _ alike
  have values := alike.fields.get? related.heaps named
  have respects (v : Value) (native : Native) (field : fields.get? key₁ = some v) :=
    respects receiver h owner fields v native at_ (handle _ eq) alike.found₁ field
  simp only at values ⊢
  generalize fields.get? key₁ = field₁ at values respects
  generalize fields'.get? key₂ = field₂ at values
  cases values with
  | none => exact invokeFrom related alike.owner named
  | some same =>
    apply bind
    apply calleeSlot related
    intro below
    have inside : m₁.stack.size - 1 - count < m₁.stack.size := by omega
    apply bind
    apply setSlot related inside same
    intro related
    exact callValue related framed same fun native isNative => respects _ native rfl isNative

/-- The method is kept by the bound method itself, and the receiver by the stack. -/
theorem bindMethod (related : Related origin p m₁ m₂) (framed : m₁.frames ≠ [])
    (linked : Links p m₁ m₂ cls₁ cls₂) (named : Named p m₁.heap m₂.heap key₁ key₂) :
    Agree origin (Exec.bindMethod cls₁ key₁) (Exec.bindMethod cls₂ key₂) m₁ m₂
      (InStep origin) := by
  apply bind
  apply method? related linked named
  intro o₁ o₂ methods
  cases methods with
  | none => exact undefinedProperty related named
  | some method =>
    apply bind
    apply peek related
    intro receiver₁ receiver₂ same _ _
    obtain ⟨held₁, held₂⟩ := held_of_linked same
    apply bind
    apply allocate related (.bound same method) (by simp [Object.kind]) (by simp)
      ⟨held₁, method.live₁, fun _ => lt_size_of_contains method.live₁⟩
      ⟨held₂, method.live₂, fun _ => lt_size_of_contains method.live₂⟩
    intro q h₁ h₂ after₁ after₂ _ _ _ related linked
    exact replaceTop related framed (.object linked)

theorem getProperty (related : Related origin p m₁ m₂) (framed : m₁.frames ≠ [])
    (named : Named p m₁.heap m₂.heap key₁ key₂) :
    Agree origin (Exec.getProperty key₁) (Exec.getProperty key₂) m₁ m₂ (InStep origin) := by
  apply bind
  apply peek related
  intro _ _ same _ _
  apply bind
  apply instance? related same
  intro _ _ instances _
  apply bind
  apply orFail related instances
  rintro ⟨_, _, fields⟩ ⟨_, _, fields'⟩ _ _ alike
  have values := alike.fields.get? related.heaps named
  simp only at values ⊢
  generalize fields.get? key₁ = field₁ at values
  generalize fields'.get? key₂ = field₂ at values
  cases values with
  | none => exact bindMethod related framed alike.owner named
  | some same =>
    exact replaceTop related framed same

theorem setProperty (related : Related origin p m₁ m₂) (framed : m₁.frames ≠ [])
    (named : Named p m₁.heap m₂.heap key₁ key₂) :
    Agree origin (Exec.setProperty key₁) (Exec.setProperty key₂) m₁ m₂ (InStep origin) := by
  apply bind
  apply peek related
  intro _ _ target _ _
  apply bind
  apply peek related
  intro v₁ v₂ same at_ mem
  apply bind
  apply instance? related target
  intro _ _ instances _
  apply bind
  apply orFail related instances
  rintro ⟨h, _, fields⟩ ⟨h', _, fields'⟩ _ _ alike
  have changed := alike.fields.insert related.heaps named same
  have stored := (related.setFields alike.linked alike.found₁ alike.found₂ changed).recharged h h'
  -- The value stays on the stack.
  have same := linked_of_matches (matches_of_linked same)
    (stored.intact₁.stack v₁ (Array.mem_of_getElem? at_)) (stored.intact₂.stack v₂ mem)
  exact bind (modifyHeap (replaceTwo stored framed same))

theorem popClass {post : Handle → Handle → Machine → Machine → Prop}
    (related : Related origin p m₁ m₂)
    (holds : ∀ cls₁ cls₂, Related origin p { m₁ with stack := m₁.stack.pop }
        { m₂ with stack := m₂.stack.pop } → Links p m₁ m₂ cls₁ cls₂ →
      post cls₁ cls₂ { m₁ with stack := m₁.stack.pop } { m₂ with stack := m₂.stack.pop }) :
    Agree origin Exec.popClass Exec.popClass m₁ m₂ post :=
  bind (pop related fun _ _ same related => bind (class? related same fun _ _ classes =>
    bind (orFail related classes fun c₁ c₂ _ _ same =>
      pure (holds c₁.1 c₂.1 related same.linked))))

theorem inherit (related : Related origin p m₁ m₂) (framed : m₁.frames ≠ []) :
    Agree origin Exec.inherit Exec.inherit m₁ m₂ (InStep origin) := by
  apply bind
  apply peek related
  intro _ _ super _ _
  apply bind
  apply peek related
  intro _ _ sub _ _
  apply bind
  apply class? related super
  intro _ _ classes
  apply bind
  apply orFail related classes
  rintro ⟨_, _⟩ ⟨_, _⟩ _ _ inherited
  apply bind
  apply class? related sub
  intro _ _ classes
  apply bind
  apply orMalformed related classes
  rintro ⟨h, methods⟩ ⟨h', methods'⟩ _ _ same
  obtain ⟨_, found₁⟩ := same.found₁
  obtain ⟨_, found₂⟩ := same.found₂
  have changed := same.methods.addAll inherited.methods related.heaps
  have stored := (related.setMethods same.linked found₁ found₂ changed).recharged h h'
  exact bind (modifyHeap (discard (pop stored fun _ _ _ related => ⟨⟨p, related⟩, framed⟩)))

theorem defineMethod (related : Related origin p m₁ m₂) (framed : m₁.frames ≠ [])
    (named : Named p m₁.heap m₂.heap key₁ key₂) :
    Agree origin (Exec.defineMethod key₁) (Exec.defineMethod key₂) m₁ m₂ (InStep origin) := by
  apply bind
  apply peek related
  intro _ _ method _ _
  apply bind
  apply peek related
  intro _ _ cls _ _
  apply bind
  apply class? related cls
  intro _ _ classes
  apply bind
  apply orMalformed related classes
  rintro ⟨h, methods⟩ ⟨h', methods'⟩ _ _ same
  obtain ⟨_, found₁⟩ := same.found₁
  obtain ⟨_, found₂⟩ := same.found₂
  have changed := same.methods.insert related.heaps named method
  have stored := (related.setMethods same.linked found₁ found₂ changed).recharged h h'
  exact bind (modifyHeap (discard (pop stored fun _ _ _ related => ⟨⟨p, related⟩, framed⟩)))

/-! ## Closures and captured variables -/

theorem resolve {post : Handle → Handle → Machine → Machine → Prop} {capture : Capture}
    (related : Related origin p m₁ m₂) (framed : m₁.frames ≠ [])
    (holds : ∀ q h₁ h₂ m₁' m₂', (∀ h k, p h k → q h k) → Related origin q m₁' m₂' →
      Links q m₁' m₂' h₁ h₂ → m₁'.heap.kind? h₁ = some .upvalue →
      (∀ k ∈ m₁.roots, m₁.heap.contains k → m₁.heap.Keeps m₁'.heap k) → m₁'.stack = m₁.stack →
      m₂'.stack = m₂.stack → m₁'.frames = m₁.frames → post h₁ h₂ m₁' m₂') :
    Agree origin (Exec.resolve capture) (Exec.resolve capture) m₁ m₂ post := by
  refine ite Iff.rfl (fun _ => bind (frame related framed fun f₁ f₂ _ _ frames => ?_)) fun _ => ?_
  · rw [frames.base]
    exact captureSlot related holds
  · exact upvalue related framed fun h₁ h₂ linked kind =>
      holds p h₁ h₂ m₁ m₂ (fun _ _ paired => paired) related linked kind
        (fun k _ _ => .refl m₁.heap k) rfl rfl rfl

/-- The closures lie on the stacks, so that they stay linked while captured variables are
allocated. -/
theorem captureAll {captures : List Capture} (related : Related origin p m₁ m₂)
    (framed : m₁.frames ≠ []) (paired : p h₁ h₂) (mem₁ : .object h₁ ∈ m₁.stack)
    (mem₂ : .object h₂ ∈ m₂.stack) (kind : m₁.heap.kind? h₁ = some .closure) :
    Agree origin (Exec.captureAll h₁ captures) (Exec.captureAll h₂ captures) m₁ m₂
      (InStep origin) := by
  induction captures generalizing p m₁ m₂ with
  | nil => exact settle related framed
  | cons capture rest ih =>
    apply bind
    apply resolve related framed
    intro q u₁ u₂ m₁' m₂' le related' captured kind' keeps stack₁ stack₂ frames
    have root : h₁ ∈ m₁.roots := Machine.mem_roots_stack mem₁ rfl
    rw [← stack₁] at mem₁
    rw [← stack₂] at mem₂
    rw [← frames] at framed
    -- The closures are still live, wherever the machines have collected.
    have linked : Links q m₁' m₂' h₁ h₂ := ⟨le h₁ h₂ paired,
      related'.intact₁.stack _ mem₁ h₁ rfl, related'.intact₂.stack _ mem₂ h₂ rfl⟩
    have kind : m₁'.heap.kind? h₁ = some .closure :=
      (keeps h₁ root (contains_of_kind? kind)).kind.trans kind
    obtain ⟨object, found, closure⟩ := kind?_eq_some_iff.mp kind
    cases object <;> cases closure
    refine bind (get (ite ?_ (fun gone => ?_) fun _ => bind (modifyHeap ?_)))
    · rw [linked.live₁, linked.live₂]
    · rw [linked.live₁] at gone
      cases gone
    · exact ih (related'.pushCaptured linked kind captured kind') framed linked.paired mem₁ mem₂
        ((keeps_pushCaptured found u₁ h₁).kind.trans kind)

theorem makeClosure {index : Nat} (related : Related origin p m₁ m₂) (framed : m₁.frames ≠ []) :
    Agree origin (Exec.makeClosure index) (Exec.makeClosure index) m₁ m₂ (InStep origin) := by
  apply bind
  apply constant related framed
  intro v₁ v₂ _ _ _ _ _ same
  apply bind
  apply get
  -- The constants are functions both or neither.
  have functions : Option.Rel (fun a b => Links p m₁ m₂ a.1 b.1 ∧ a.2.Matches (Links p m₁ m₂) b.2 ∧
      m₁.heap.kind? a.1 = some .function)
      (do let h ← v₁.handle?; return (h, ← m₁.heap.function? h))
      (do let h ← v₂.handle?; return (h, ← m₂.heap.function? h)) := by
    cases same with
    | nil | bool | number => exact .none
    | @object h₁ h₂ linked =>
      have functions := related.heaps.function? linked
      simp only [Value.handle?, Option.bind_eq_bind, Option.bind_some]
      cases found : m₁.heap.function? h₁ with
      | none =>
        rw [found] at functions
        cases found' : m₂.heap.function? h₂ with
        | none => exact .none
        | some g =>
          rw [found'] at functions
          cases functions
      | some f =>
        rw [found] at functions
        cases found' : m₂.heap.function? h₂ with
        | none =>
          rw [found'] at functions
          cases functions
        | some g =>
          rw [found'] at functions
          cases functions with
          | some same => exact .some ⟨linked, same, kind?_of_get? (get?_of_function? found)⟩
  apply bind
  apply orMalformed related functions
  rintro ⟨h₁, f⟩ ⟨h₂, g⟩ - - ⟨linked, same, kind⟩
  simp only at linked same kind ⊢
  rw [← same.captureCount]
  apply bind
  apply fetchCaptures related framed
  intro captures ip related framed
  have kind' := related.heaps.kind? linked ▸ kind
  apply bind
  apply allocate related (.closure linked (.empty _)) (by simp [Object.kind]) (by simp)
    ⟨kind, fun u mem => by simp at mem⟩ ⟨kind', fun u mem => by simp at mem⟩
  intro q c₁ c₂ after₁ after₂ _ allocated₁ _ related closure
  apply bind
  apply push related (.object closure)
  intro related
  exact captureAll related framed closure.paired Array.mem_push_self Array.mem_push_self
    (kind?_of_get? allocated₁.get?)

theorem getUpvalue {post : Value → Value → Machine → Machine → Prop} {index : Nat}
    (related : Related origin p m₁ m₂) (framed : m₁.frames ≠ [])
    (holds : ∀ v₁ v₂, v₁.Matches (Links p m₁ m₂) v₂ → post v₁ v₂ m₁ m₂) :
    Agree origin (Exec.getUpvalue index) (Exec.getUpvalue index) m₁ m₂ post := by
  apply bind
  apply upvalue related framed
  intro h₁ h₂ linked _
  apply bind
  apply get
  obtain ⟨o₁, o₂, found₁, found₂, matching⟩ := related.heaps.get? linked
  rw [found₁, found₂]
  apply bind
  apply pure
  cases matching with
  | opened slot =>
    exact orMalformed related (related.linked.stack.getElem? slot) fun v₁ v₂ _ _ same =>
      holds v₁ v₂ same
  | closed same => exact pure (holds _ _ same)
  | _ => exact malformed related

theorem setUpvalue {index : Nat} (related : Related origin p m₁ m₂) (framed : m₁.frames ≠ []) :
    Agree origin (Exec.setUpvalue index) (Exec.setUpvalue index) m₁ m₂ (InStep origin) := by
  apply bind
  apply upvalue related framed
  intro h₁ h₂ linked _
  apply bind
  apply peek related
  intro v₁ v₂ same _ _
  apply bind
  apply get
  obtain ⟨o₁, o₂, found₁, found₂, matching⟩ := related.heaps.get? linked
  rw [found₁, found₂]
  apply bind
  apply pure
  cases matching with
  | opened slot =>
    refine ite (by rw [related.stack.size]) (fun inside => ?_) fun _ => malformed related
    exact setSlot related inside same fun related => ⟨⟨p, related⟩, framed⟩
  | closed _ => exact modifyHeap ⟨⟨p, related.setClosed linked found₁ found₂ same⟩, framed⟩
  | _ => exact malformed related

theorem closeTop (related : Related origin p m₁ m₂) (framed : m₁.frames ≠ []) :
    Agree origin Exec.closeTop Exec.closeTop m₁ m₂ (InStep origin) := by
  apply bind
  apply get
  rw [← related.stack.size]
  apply ite Iff.rfl (fun _ => bind (malformed related))
  intro _
  apply bind
  apply modify
  have framed : (m₁.closeFrom (m₁.stack.size - 1)).frames ≠ [] := by
    rw [Machine.closeFrom_eq]
    exact framed
  exact discard (pop (related.closeFrom _) fun _ _ _ related => ⟨⟨p, related⟩, framed⟩)

/-! ## Operators -/

theorem binary {op : Number → Number → Value} (related : Related origin p m₁ m₂)
    (framed : m₁.frames ≠ []) (plain : ∀ x y, (op x y).Matches (Links p m₁ m₂) (op x y)) :
    Agree origin (Exec.binary op) (Exec.binary op) m₁ m₂ (InStep origin) := by
  apply bind
  apply peek related
  intro _ _ same _ _
  apply bind
  apply peek related
  intro _ _ same' _ _
  cases same with
  | number x =>
    cases same' with
    | number y =>
      exact replaceTwo related framed (plain x y)
    | _ => exact fail related
  | _ => exact fail related

theorem joinedText? (related : Related origin p m₁ m₂) (same : v₁.Matches (Links p m₁ m₂) v₂) :
    Exec.joinedText? m₁.heap v₁ = Exec.joinedText? m₂.heap v₂ := by
  cases same with
  | nil | bool | number => rfl
  | object linked => exact related.heaps.text? linked

/-- One heap may have to make the string that the other one has already. -/
theorem join {w₁ w₂ : Value} (related : Related origin p m₁ m₂) (framed : m₁.frames ≠ [])
    (same : v₁.Matches (Links p m₁ m₂) v₂) (same' : w₁.Matches (Links p m₁ m₂) w₂) :
    Agree origin (Exec.join v₁ w₁) (Exec.join v₂ w₂) m₁ m₂ (InStep origin) := by
  refine bind (get (guard related ?_ fun _ => ?_))
  · rw [related.heaps.isString same, related.heaps.isString same']
  rw [joinedText? related same, joinedText? related same']
  cases Exec.joinedText? m₂.heap v₂ with
  | none => exact fail related
  | some left =>
    cases Exec.joinedText? m₂.heap w₂ with
    | none => exact fail related
    | some right =>
      apply bind
      apply intern related
      intro q h₁ h₂ after₁ after₂ related linked
      exact replaceTwo related framed (.object linked)

theorem add (related : Related origin p m₁ m₂) (framed : m₁.frames ≠ []) :
    Agree origin Exec.add Exec.add m₁ m₂ (InStep origin) := by
  apply bind
  apply peek related
  intro _ _ same _ _
  apply bind
  apply peek related
  intro _ _ same' _ _
  have joined := join related framed same same'
  cases same with
  | number x =>
    cases same' with
    | number y =>
      exact replaceTwo related framed (.number _)
    | _ => exact joined
  | _ => exact joined

theorem negate (related : Related origin p m₁ m₂) (framed : m₁.frames ≠ []) :
    Agree origin Exec.negate Exec.negate m₁ m₂ (InStep origin) := by
  apply bind
  apply peek related
  intro _ _ same _ _
  cases same with
  | number n =>
    exact replaceTop related framed (.number _)
  | _ => exact fail related

theorem print (related : Related origin p m₁ m₂) (framed : m₁.frames ≠ []) :
    Agree origin Exec.print Exec.print m₁ m₂ (InStep origin) := by
  apply bind
  apply pop related
  intro v₁ v₂ same related
  apply bind
  apply get
  have texts : m₁.heap.display v₁ = m₂.heap.display v₂ := related.heaps.display same
  have written := related.write (m₂.heap.display v₂ ++ "\n")
  have fits := (write_alike related.room (m₂.heap.display v₂ ++ "\n")).1
  simp only [texts]
  refine bind (set (ite ?_ (fun _ => fail written) fun _ => settle written framed))
  rw [fits]

/-! ## Globals -/

theorem getGlobal (related : Related origin p m₁ m₂) (framed : m₁.frames ≠ [])
    (named : Named p m₁.heap m₂.heap key₁ key₂) :
    Agree origin (Exec.getGlobal key₁) (Exec.getGlobal key₂) m₁ m₂ (InStep origin) := by
  apply bind
  apply get
  have values := related.alike.get? related.heaps named
  generalize m₁.globals.get? key₁ = global₁ at values
  generalize m₂.globals.get? key₂ = global₂ at values
  cases values with
  | none => exact bind (textOf related named fun _ => fail related)
  | some same => exact pushSettled related framed same

theorem defineGlobal (related : Related origin p m₁ m₂) (framed : m₁.frames ≠ [])
    (named : Named p m₁.heap m₂.heap key₁ key₂) :
    Agree origin (Exec.defineGlobal key₁) (Exec.defineGlobal key₂) m₁ m₂ (InStep origin) := by
  apply bind
  apply peek related
  intro v₁ v₂ same _ _
  apply bind
  apply discard
  apply modifyGet
  have stored := related.withGlobals (related.alike.insert related.heaps named same)
  exact discard (pop stored fun _ _ _ related => ⟨⟨p, related⟩, framed⟩)

theorem setGlobal (related : Related origin p m₁ m₂) (framed : m₁.frames ≠ [])
    (named : Named p m₁.heap m₂.heap key₁ key₂) :
    Agree origin (Exec.setGlobal key₁) (Exec.setGlobal key₂) m₁ m₂ (InStep origin) := by
  apply bind
  apply peek related
  intro v₁ v₂ same _ _
  apply bind
  apply modifyGet
  have new := related.alike.insert_fst related.heaps named v₁ v₂
  have stored := related.withGlobals (related.alike.insert related.heaps named same)
  refine ite ?_ (fun _ => bind (modify ?_)) fun _ => settle stored framed
  · rw [new]
  · have removed := stored.withGlobals (stored.alike.erase stored.heaps named)
    exact bind (textOf removed named fun _ => fail removed)

/-! ## Jumps -/

theorem jump {distance : Nat} (related : Related origin p m₁ m₂) (framed : m₁.frames ≠ []) :
    Agree origin (Exec.jump distance) (Exec.jump distance) m₁ m₂ (InStep origin) := by
  apply bind
  apply frame related framed
  intro f₁ f₂ _ _ frames
  rw [frames.ip]
  exact setIp related fun related => ⟨⟨p, related⟩, Machine.frames_withIp_ne_nil framed _⟩

theorem jumpBack {distance : Nat} (related : Related origin p m₁ m₂) (framed : m₁.frames ≠ []) :
    Agree origin (Exec.jumpBack distance) (Exec.jumpBack distance) m₁ m₂ (InStep origin) := by
  apply bind
  apply frame related framed
  intro f₁ f₂ _ _ frames
  rw [frames.ip]
  apply ite Iff.rfl (fun _ => bind (malformed related))
  intro _
  exact setIp related fun related => ⟨⟨p, related⟩, Machine.frames_withIp_ne_nil framed _⟩

/-! ## Any instruction -/

/-- An instruction does alike in both runs, provided that a host function it calls respects
pairings. -/
theorem perform {op : Opcode} {a b : Nat} (related : Related origin p m₁ m₂)
    (framed : m₁.frames ≠ [])
    (respects : ∀ callee count native, m₁.callee? op a b = some (callee, count) →
      m₁.IsNative callee native → native.Respects) :
    Agree origin (Exec.perform op a b) (Exec.perform op a b) m₁ m₂ (InStep origin) := by
  cases op with
  | constant | longConstant =>
    exact bind (constant related framed fun _ _ _ _ _ _ _ same => pushSettled related framed same)
  | pushNil => exact pushSettled related framed .nil
  | pushTrue | pushFalse => exact pushSettled related framed (.bool _)
  | pop => exact discard (pop related fun _ _ _ related => ⟨⟨p, related⟩, framed⟩)
  | getLocal =>
    exact bind (getLocal related framed fun _ _ same => pushSettled related framed same)
  | setLocal =>
    exact bind (peek related fun _ _ same _ _ => setLocal related framed same
      fun _ _ related => ⟨⟨p, related⟩, framed⟩)
  | getGlobal => exact bind (name related framed fun _ _ _ named => getGlobal related framed named)
  | defineGlobal =>
    exact bind (name related framed fun _ _ _ named => defineGlobal related framed named)
  | setGlobal => exact bind (name related framed fun _ _ _ named => setGlobal related framed named)
  | getUpvalue =>
    exact bind (getUpvalue related framed fun _ _ same => pushSettled related framed same)
  | setUpvalue => exact setUpvalue related framed
  | getProperty =>
    exact bind (name related framed fun _ _ _ named => getProperty related framed named)
  | setProperty =>
    exact bind (name related framed fun _ _ _ named => setProperty related framed named)
  | getSuper =>
    exact bind (name related framed fun _ _ _ named => bind (popClass related
      fun _ _ related linked => bindMethod related framed linked named))
  -- Handles are equal if their partners are, as links are one to one.
  | equal =>
    apply bind
    apply pop related
    intro _ _ right related
    apply bind
    apply pop related
    intro _ _ left related
    rw [left.equal related.heaps.unique right]
    exact pushSettled related framed (.bool _)
  | greater | less => exact binary related framed fun _ _ => .bool _
  | subtract | multiply | divide => exact binary related framed fun _ _ => .number _
  | add => exact add related framed
  | not =>
    apply bind
    apply pop related
    intro _ _ same related
    rw [same.isFalsey]
    exact pushSettled related framed (.bool _)
  | negate => exact negate related framed
  | print => exact print related framed
  | jump => exact jump related framed
  | jumpIfFalse =>
    apply bind
    apply peek related
    intro _ _ same _ _
    rw [same.isFalsey]
    exact ite Iff.rfl (fun _ => jump related framed) fun _ => settle related framed
  | loop => exact jumpBack related framed
  | call =>
    refine bind (peek related fun callee _ same at_ _ => callValue related framed same
      fun native isNative => respects callee a native ?_ isNative)
    rw [Machine.callee?, at_, Option.map_some]
  | invoke =>
    apply bind
    apply name related framed
    intro key₁ key₂ eq named
    apply invoke related framed named
    intro receiver h owner fields v native at_ handle object field isNative
    have instance_ : m₁.heap.instance? h = some (owner, fields) := by rw [Heap.instance?, object]
    refine respects v b native ?_ isNative
    simp only [Machine.callee?, eq, at_, handle, instance_, field, Option.bind_eq_bind,
      Option.bind_some, Option.pure_def]
  | superInvoke =>
    exact bind (name related framed fun _ _ _ named => bind (popClass related
      fun _ _ related linked => invokeFrom related linked named))
  | closure => exact makeClosure related framed
  | closeUpvalue => exact closeTop related framed
  | newClass =>
    apply bind
    apply name related framed
    intro key₁ key₂ _ named
    refine bind (allocate related (.cls named.linked (.empty _)) (by simp [Object.kind])
      (by simp) ⟨kind?_of_key? named.found₁, .empty _ _⟩
      ⟨kind?_of_key? named.found₂, .empty _ _⟩ ?_)
    intro q h₁ h₂ after₁ after₂ _ _ _ related linked
    exact pushSettled related framed (.object linked)
  | inherit => exact inherit related framed
  | method => exact bind (name related framed fun _ _ _ named => defineMethod related framed named)
  | ret => exact returnValue related framed

/-- A step does alike in both runs, whether or not either machine records it. -/
theorem step (related : Related origin p m₁ m₂) (framed : m₁.frames ≠ [])
    (respectful : m₁.Respectful) :
    Agree origin Exec.step Exec.step m₁ m₂ (InStep origin) := by
  obtain ⟨f₁, rest₁, eq₁⟩ := List.exists_cons_of_ne_nil framed
  have frames := related.frames
  rw [eq₁] at frames
  obtain ⟨f₂, rest₂, same, -, eq₂⟩ := List.forall₂_cons_left_iff.mp frames
  have head₁ : m₁.frames.head? = some f₁ := by rw [eq₁, List.head?_cons]
  have head₂ : m₂.frames.head? = some f₂ := by rw [eq₂, List.head?_cons]
  obtain ⟨g₁, found₁, -⟩ :=
    function?_of_kind? (related.intact₁.functions f₁ (List.mem_of_mem_head? head₁))
  obtain ⟨g₂, found₂, -⟩ :=
    function?_of_kind? (related.intact₂.functions f₂ (List.mem_of_mem_head? head₂))
  -- Either machine may record its own events before the instruction.
  obtain ⟨events₁, traced₁⟩ := step_traced none head₁ found₁
  obtain ⟨events₂, traced₂⟩ := step_traced none head₂ found₂
  unfold Agree
  rw [traced₁, traced₂]
  apply bind
  apply fetch (related.withEvents events₁ events₂) framed
  intro instruction ip next related framed
  apply perform related framed
  intro callee count native called isNative
  rw [Machine.callee?_withIp] at called
  have next : m₁.next? = some instruction := next
  refine respectful callee count native ?_ isNative
  rw [Machine.nextCallee?, next, Option.bind_eq_bind, Option.bind_some]
  exact called

/-- Linked functions are entered alike. -/
theorem enter (related : Related origin p m₁ m₂) (linked : Links p m₁ m₂ h₁ h₂) :
    Agree origin (Machine.enter h₁) (Machine.enter h₂) m₁ m₂ (InStep origin) := by
  apply bind
  apply get
  apply bind
  apply discard
  apply orFail related (related.heaps.function? linked)
  intro f₁ f₂ found₁ found₂ _
  have kind₁ := kind?_of_get? (get?_of_function? found₁)
  have kind₂ := kind?_of_get? (get?_of_function? found₂)
  apply bind
  apply push related (.object linked)
  intro related
  apply bind
  apply allocate related (.closure linked (.empty _)) (by simp [Object.kind]) (by simp)
    ⟨kind₁, fun u mem => by simp at mem⟩ ⟨kind₂, fun u mem => by simp at mem⟩
  intro q c₁ c₂ after₁ after₂ _ _ _ related closure
  apply bind
  apply discard
  apply pop related
  intro _ _ _ related
  exact bind (push related (.object closure) fun related => call related closure)

end Agree

end Exec

end ScriptMachine
