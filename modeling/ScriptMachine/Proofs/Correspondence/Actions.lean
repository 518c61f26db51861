/-
# Two runs of an action

An action that runs on related machines does alike on both: it gives results as
asked for, or it stops on both for the same reason. As for one machine, there is
one law for each way to put actions together and one for each primitive action.

The handles that an action holds are linked, so that it finds the same in both
heaps. An allocation is the only thing that may unlink them, since either
machine may collect. What the stack, the frames or the new object keep stays
linked, and whatever an instruction goes on to use has to be among that.

## Main definitions

* `Exec.Stopped` — two runs have stopped for the same reason
* `Exec.Agree` — an action does alike in two runs

## Main results

* `Agree.bind`, `Agree.guard` — actions one after the other
* `Agree.push`, `Agree.allocate`, … — the primitive actions
-/

import ScriptMachine.Proofs.Correspondence.Machines

namespace ScriptMachine

open Heap Machine

/-- The reasons to stop are equal up to the pairing. None of them is a fault of the machine. -/
inductive Stop.Matches (p : Pairing) : Stop → Stop → Prop
  | finished {v w : Value} (same : v.Matches p w) : Matches p (.finished v) (.finished w)
  | failed (kind : ErrorKind) : Matches p (.failed kind) (.failed kind)

namespace Exec

/-- The runs have stopped in related machines for the same reason. -/
def Stopped (origin : Origin) (stop₁ stop₂ : Stop) (m₁ m₂ : Machine) : Prop :=
  ∃ p, Related origin p m₁ m₂ ∧ stop₁.Matches (Links p m₁ m₂) stop₂

/-- From these machines both actions lead to what is asked for, or both stop alike. -/
def Agree {α β : Type} (origin : Origin) (x₁ : Exec α) (x₂ : Exec β) (m₁ m₂ : Machine)
    (post : α → β → Machine → Machine → Prop) : Prop :=
  match x₁ none m₁, x₂ none m₂ with
  | .ok a m₁', .ok b m₂' => post a b m₁' m₂'
  | .error stop₁ m₁', .error stop₂ m₂' => Stopped origin stop₁ stop₂ m₁' m₂'
  | _, _ => False

variable {α β γ δ : Type} {origin : Origin} {p : Pairing} {m₁ m₂ : Machine} {x₁ : Exec α}
  {x₂ : Exec β} {post : α → β → Machine → Machine → Prop} {v₁ v₂ : Value} {h₁ h₂ : Handle}
  {key₁ key₂ : Key}

namespace Agree

/-! ## Actions one after the other -/

/-- Actions that agree come to an end in the same way. -/
theorem cases (agree : Agree origin x₁ x₂ m₁ m₂ post) :
    (∃ a b m₁' m₂', x₁ none m₁ = .ok a m₁' ∧ x₂ none m₂ = .ok b m₂' ∧ post a b m₁' m₂') ∨
    ∃ stop₁ stop₂ m₁' m₂', x₁ none m₁ = .error stop₁ m₁' ∧ x₂ none m₂ = .error stop₂ m₂' ∧
      Stopped origin stop₁ stop₂ m₁' m₂' := by
  unfold Agree at agree
  cases ran₁ : x₁ none m₁ with
  | ok a m₁' =>
    cases ran₂ : x₂ none m₂ with
    | ok b m₂' =>
      rw [ran₁, ran₂] at agree
      exact .inl ⟨a, b, m₁', m₂', rfl, rfl, agree⟩
    | error stop₂ m₂' =>
      rw [ran₁, ran₂] at agree
      exact agree.elim
  | error stop₁ m₁' =>
    cases ran₂ : x₂ none m₂ with
    | ok b m₂' =>
      rw [ran₁, ran₂] at agree
      exact agree.elim
    | error stop₂ m₂' =>
      rw [ran₁, ran₂] at agree
      exact .inr ⟨stop₁, stop₂, m₁', m₂', rfl, rfl, agree⟩

theorem pure {a : α} {b : β} (holds : post a b m₁ m₂) :
    Agree origin (Pure.pure a) (Pure.pure b) m₁ m₂ post := holds

theorem bind {f₁ : α → Exec γ} {f₂ : β → Exec δ} {post : γ → δ → Machine → Machine → Prop}
    (first : Agree origin x₁ x₂ m₁ m₂ fun a b m₁' m₂' => Agree origin (f₁ a) (f₂ b) m₁' m₂' post) :
    Agree origin (x₁ >>= f₁) (x₂ >>= f₂) m₁ m₂ post := by
  unfold Agree
  -- Where one of the first actions stops, the other one stops too, and neither goes on.
  rcases first.cases with ⟨a, b, m₁', m₂', ran₁, ran₂, rest⟩ | ⟨_, _, _, _, ran₁, ran₂, stopped⟩
  · rw [bind_eq ran₁, bind_eq ran₂]
    exact rest
  · rw [bind_error ran₁, bind_error ran₂]
    exact stopped

theorem discard {post : Unit → Unit → Machine → Machine → Prop}
    (first : Agree origin x₁ x₂ m₁ m₂ fun _ _ m₁' m₂' => post ⟨⟩ ⟨⟩ m₁' m₂') :
    Agree origin (Functor.discard x₁) (Functor.discard x₂) m₁ m₂ post := by
  change Agree origin (x₁ >>= fun _ => Pure.pure ⟨⟩) (x₂ >>= fun _ => Pure.pure ⟨⟩) m₁ m₂ post
  exact bind first

theorem get {post : Machine → Machine → Machine → Machine → Prop} (holds : post m₁ m₂ m₁ m₂) :
    Agree origin MonadState.get MonadState.get m₁ m₂ post := holds

theorem modify {f₁ f₂ : Machine → Machine} {post : Unit → Unit → Machine → Machine → Prop}
    (holds : post ⟨⟩ ⟨⟩ (f₁ m₁) (f₂ m₂)) :
    Agree origin (modify f₁) (modify f₂) m₁ m₂ post := holds

theorem set {m₁' m₂' : Machine} {post : Unit → Unit → Machine → Machine → Prop}
    (holds : post ⟨⟩ ⟨⟩ m₁' m₂') :
    Agree origin (MonadStateOf.set m₁') (MonadStateOf.set m₂') m₁ m₂ post := holds

theorem modifyGet {f₁ : Machine → α × Machine} {f₂ : Machine → β × Machine}
    (holds : post (f₁ m₁).1 (f₂ m₂).1 (f₁ m₁).2 (f₂ m₂).2) :
    Agree origin (modifyGet f₁) (modifyGet f₂) m₁ m₂ post := holds

theorem modifyHeap {f₁ f₂ : Heap → Heap} {post : Unit → Unit → Machine → Machine → Prop}
    (holds : post ⟨⟩ ⟨⟩ { m₁ with heap := f₁ m₁.heap } { m₂ with heap := f₂ m₂.heap }) :
    Agree origin (Exec.modifyHeap f₁) (Exec.modifyHeap f₂) m₁ m₂ post := holds

theorem ite {c₁ c₂ : Prop} [Decidable c₁] [Decidable c₂] {y₁ : Exec α} {y₂ : Exec β}
    (iff : c₁ ↔ c₂) (yes : c₁ → Agree origin x₁ x₂ m₁ m₂ post)
    (no : ¬ c₁ → Agree origin y₁ y₂ m₁ m₂ post) :
    Agree origin (if c₁ then x₁ else y₁) (if c₂ then x₂ else y₂) m₁ m₂ post := by
  by_cases holds : c₁
  · rw [if_pos holds, if_pos (iff.mp holds)]
    exact yes holds
  · rw [if_neg holds, if_neg fun holds' => holds (iff.mpr holds')]
    exact no holds

/-! ## Stopping -/

variable {kind : ErrorKind} {flaw : Malformed} {fault : Fault} {r : α → β → Prop} {o₁ : Option α}
  {o₂ : Option β}

theorem fail (related : Related origin p m₁ m₂) :
    Agree origin (Exec.fail kind) (Exec.fail kind) m₁ m₂ post := ⟨p, related, .failed kind⟩

theorem malformed (related : Related origin p m₁ m₂) :
    Agree origin (Exec.malformed flaw) (Exec.malformed flaw) m₁ m₂ post := fail related

/-- A test that stops with an error, and what comes after it. -/
theorem guard {c₁ c₂ : Prop} [Decidable c₁] [Decidable c₂]
    {post : Unit → Unit → Machine → Machine → Prop} {f₁ f₂ : Unit → Exec Unit}
    (related : Related origin p m₁ m₂) (iff : c₁ ↔ c₂)
    (no : ¬ c₁ → Agree origin (f₁ ⟨⟩) (f₂ ⟨⟩) m₁ m₂ post) :
    Agree origin (if c₁ then Exec.fail kind >>= f₁ else f₁ ⟨⟩)
      (if c₂ then Exec.fail kind >>= f₂ else f₂ ⟨⟩) m₁ m₂ post :=
  ite iff (fun _ => bind (fail related)) no

theorem orFail (related : Related origin p m₁ m₂) (options : Option.Rel r o₁ o₂)
    (holds : ∀ a b, o₁ = some a → o₂ = some b → r a b → post a b m₁ m₂) :
    Agree origin (Exec.orFail kind o₁) (Exec.orFail kind o₂) m₁ m₂ post := by
  cases options with
  | none => exact fail related
  | some same => exact pure (holds _ _ rfl rfl same)

theorem orMalformed (related : Related origin p m₁ m₂) (options : Option.Rel r o₁ o₂)
    (holds : ∀ a b, o₁ = some a → o₂ = some b → r a b → post a b m₁ m₂) :
    Agree origin (Exec.orMalformed flaw o₁) (Exec.orMalformed flaw o₂) m₁ m₂ post := by
  cases options with
  | none => exact malformed related
  | some same => exact pure (holds _ _ rfl rfl same)

theorem orBroken (options : Option.Rel r o₁ o₂) (present : o₁ ≠ none)
    (holds : ∀ a b, o₁ = some a → o₂ = some b → r a b → post a b m₁ m₂) :
    Agree origin (Exec.orBroken fault o₁) (Exec.orBroken fault o₂) m₁ m₂ post := by
  cases options with
  | none => exact absurd rfl present
  | some same => exact pure (holds _ _ rfl rfl same)

/-! ## The stack -/

variable {slot count : Nat}

theorem stackLimit (related : Related origin p m₁ m₂) :
    m₁.config.stackLimit = m₂.config.stackLimit := by
  rw [Config.stackLimit, Config.stackLimit, related.framesMax, related.slotsPerFrame]

theorem push {post : Unit → Unit → Machine → Machine → Prop} (related : Related origin p m₁ m₂)
    (same : v₁.Matches (Links p m₁ m₂) v₂)
    (holds : Related origin p { m₁ with stack := m₁.stack.push v₁ }
      { m₂ with stack := m₂.stack.push v₂ } →
        post ⟨⟩ ⟨⟩ { m₁ with stack := m₁.stack.push v₁ } { m₂ with stack := m₂.stack.push v₂ }) :
    Agree origin (Exec.push v₁) (Exec.push v₂) m₁ m₂ post := by
  refine bind (get (guard related ?_ fun _ => ?_))
  · rw [stackLimit related, related.stack.size]
  · exact holds (related.withStack (related.linked.stack.push same))

theorem peek {post : Value → Value → Machine → Machine → Prop} {distance : Nat}
    (related : Related origin p m₁ m₂)
    (holds : ∀ v₁ v₂, v₁.Matches (Links p m₁ m₂) v₂ →
      m₁.stack[m₁.stack.size - 1 - distance]? = some v₁ → v₂ ∈ m₂.stack → post v₁ v₂ m₁ m₂) :
    Agree origin (Exec.peek distance) (Exec.peek distance) m₁ m₂ post := by
  have size := related.stack.size
  refine bind (get (ite (by rw [size]) (fun _ => ?_) fun _ => malformed related))
  have values := related.linked.stack.getElem? (m₁.stack.size - 1 - distance)
  rw [← size]
  exact orMalformed related values fun v₁ v₂ found found' same =>
    holds v₁ v₂ same found (Array.mem_of_getElem? found')

theorem pop {post : Value → Value → Machine → Machine → Prop} (related : Related origin p m₁ m₂)
    (holds : ∀ v₁ v₂, v₁.Matches (Links p m₁ m₂) v₂ →
      Related origin p { m₁ with stack := m₁.stack.pop } { m₂ with stack := m₂.stack.pop } →
        post v₁ v₂ { m₁ with stack := m₁.stack.pop } { m₂ with stack := m₂.stack.pop }) :
    Agree origin Exec.pop Exec.pop m₁ m₂ post := by
  refine bind (peek related fun v₁ v₂ same _ _ => bind (modify (pure ?_)))
  exact holds v₁ v₂ same (related.withStack related.linked.stack.pop)

theorem setSlot {post : Unit → Unit → Machine → Machine → Prop} (related : Related origin p m₁ m₂)
    (inside : slot < m₁.stack.size) (same : v₁.Matches (Links p m₁ m₂) v₂)
    (holds : Related origin p { m₁ with stack := m₁.stack.setIfInBounds slot v₁ }
      { m₂ with stack := m₂.stack.setIfInBounds slot v₂ } →
        post ⟨⟩ ⟨⟩ { m₁ with stack := m₁.stack.setIfInBounds slot v₁ }
          { m₂ with stack := m₂.stack.setIfInBounds slot v₂ }) :
    Agree origin (Exec.setSlot slot v₁) (Exec.setSlot slot v₂) m₁ m₂ post := by
  refine bind (get (ite (by rw [related.stack.size]) (fun _ => ?_) fun outside => ?_))
  · exact set (holds (related.withStack (related.linked.stack.setIfInBounds slot same)))
  · exact absurd inside outside

theorem valuesAbove {post : Array Value → Array Value → Machine → Machine → Prop}
    (related : Related origin p m₁ m₂) (inside : slot < m₁.stack.size)
    (holds : ∀ values₁ values₂, Pointwise (Value.Matches (Links p m₁ m₂)) values₁ values₂ →
      post values₁ values₂ m₁ m₂) :
    Agree origin (Exec.valuesAbove slot) (Exec.valuesAbove slot) m₁ m₂ post := by
  refine bind (get (ite (by rw [related.stack.size]) (fun _ => ?_) fun outside => ?_))
  · refine pure (holds _ _ ?_)
    rw [← related.stack.size]
    exact related.linked.stack.extract _ _
  · exact absurd inside outside

theorem truncate {post : Unit → Unit → Machine → Machine → Prop} (related : Related origin p m₁ m₂)
    (holds : Related origin p { m₁ with stack := m₁.stack.take slot }
      { m₂ with stack := m₂.stack.take slot } →
        post ⟨⟩ ⟨⟩ { m₁ with stack := m₁.stack.take slot }
          { m₂ with stack := m₂.stack.take slot }) :
    Agree origin (Exec.truncate slot) (Exec.truncate slot) m₁ m₂ post :=
  modify (holds (related.withStack (related.linked.stack.take slot)))

theorem calleeSlot {post : Nat → Nat → Machine → Machine → Prop}
    (related : Related origin p m₁ m₂)
    (holds : count < m₁.stack.size →
      post (m₁.stack.size - 1 - count) (m₁.stack.size - 1 - count) m₁ m₂) :
    Agree origin (Exec.calleeSlot count) (Exec.calleeSlot count) m₁ m₂ post := by
  have size := related.stack.size
  refine bind (get (ite (by rw [size]) (fun inside => ?_) fun _ => malformed related))
  rw [← size]
  exact pure (holds inside)

/-! ## The frame -/

theorem frame {post : Frame → Frame → Machine → Machine → Prop} (related : Related origin p m₁ m₂)
    (framed : m₁.frames ≠ [])
    (holds : ∀ f₁ f₂, m₁.frames.head? = some f₁ → m₂.frames.head? = some f₂ →
      f₁.Matches (Links p m₁ m₂) f₂ → post f₁ f₂ m₁ m₂) :
    Agree origin Exec.frame Exec.frame m₁ m₂ post := by
  apply bind
  apply get
  obtain ⟨f₁, rest₁, eq₁⟩ := List.exists_cons_of_ne_nil framed
  have frames := related.linked.frames
  rw [eq₁] at frames
  obtain ⟨f₂, rest₂, same, -, eq₂⟩ := List.forall₂_cons_left_iff.mp frames
  have head₁ : m₁.frames.head? = some f₁ := by rw [eq₁, List.head?_cons]
  have head₂ : m₂.frames.head? = some f₂ := by rw [eq₂, List.head?_cons]
  rw [head₁, head₂]
  exact pure (holds f₁ f₂ head₁ head₂ same)

theorem setIp {post : Unit → Unit → Machine → Machine → Prop} {ip : Nat}
    (related : Related origin p m₁ m₂)
    (holds : Related origin p (m₁.withIp ip) (m₂.withIp ip) →
      post ⟨⟩ ⟨⟩ (m₁.withIp ip) (m₂.withIp ip)) :
    Agree origin (Exec.setIp ip) (Exec.setIp ip) m₁ m₂ post := modify (holds (related.withIp ip))

theorem function {post : Function → Function → Machine → Machine → Prop}
    (related : Related origin p m₁ m₂) (framed : m₁.frames ≠ [])
    (holds : ∀ frame f₁ f₂, m₁.frames.head? = some frame →
      m₁.heap.function? frame.function = some f₁ → f₁.Matches (Links p m₁ m₂) f₂ →
        post f₁ f₂ m₁ m₂) :
    Agree origin Exec.function Exec.function m₁ m₂ post := by
  apply bind
  apply frame related framed
  intro frame₁ frame₂ head _ same
  apply bind
  apply get
  refine orBroken (related.heaps.function? same.function) ?_ fun f₁ f₂ found _ same =>
    holds frame₁ f₁ f₂ head found same
  have kind := related.intact₁.functions frame₁ (List.mem_of_mem_head? head)
  obtain ⟨function, found, -⟩ := function?_of_kind? kind
  rw [found]
  exact Option.some_ne_none function

theorem fetch {post : Instruction → Instruction → Machine → Machine → Prop}
    (related : Related origin p m₁ m₂) (framed : m₁.frames ≠ [])
    (holds : ∀ instruction ip, m₁.next? = some instruction →
      Related origin p (m₁.withIp ip) (m₂.withIp ip) → (m₁.withIp ip).frames ≠ [] →
        post instruction instruction (m₁.withIp ip) (m₂.withIp ip)) :
    Agree origin Exec.fetch Exec.fetch m₁ m₂ post := by
  apply bind
  apply function related framed
  intro frame₁ f₁ f₂ head found functions
  apply bind
  apply frame related framed
  intro _ frame₂ head' _ frames
  obtain rfl := Option.some.inj (head.symm.trans head')
  -- Both read the same code from the same place.
  rw [← functions.chunk.code, ← frames.ip]
  apply bind
  apply setIp related
  intro related
  split
  next instruction read =>
    have read : (Reader.instruction f₁.chunk.code frame₁.ip).1 = .ok instruction := read
    refine pure (holds instruction _ ?_ related (Machine.frames_withIp_ne_nil framed _))
    simp only [Machine.next?, head, found, read, Option.bind_eq_bind, Option.bind_some,
      Except.toOption]
  next => exact malformed related

theorem fetchCaptures {post : List Capture → List Capture → Machine → Machine → Prop}
    (related : Related origin p m₁ m₂) (framed : m₁.frames ≠ [])
    (holds : ∀ captures ip, Related origin p (m₁.withIp ip) (m₂.withIp ip) →
      (m₁.withIp ip).frames ≠ [] → post captures captures (m₁.withIp ip) (m₂.withIp ip)) :
    Agree origin (Exec.fetchCaptures count) (Exec.fetchCaptures count) m₁ m₂ post := by
  apply bind
  apply function related framed
  intro _ f₁ f₂ _ _ functions
  apply bind
  apply frame related framed
  intro frame₁ frame₂ _ _ frames
  rw [functions.chunk.code, frames.ip]
  apply bind
  apply setIp related
  intro related
  cases (Reader.captures f₂.chunk.code count frame₂.ip).1 with
  | none => exact malformed related
  | some captures => exact pure (holds captures _ related (Machine.frames_withIp_ne_nil framed _))

/-! ## What operands stand for -/

variable {index : Nat}

theorem constant {post : Value → Value → Machine → Machine → Prop}
    (related : Related origin p m₁ m₂) (framed : m₁.frames ≠ [])
    (holds : ∀ v₁ v₂ frame f, m₁.frames.head? = some frame →
      m₁.heap.function? frame.function = some f → f.chunk.constant? index = some v₁ →
        v₁.Matches (Links p m₁ m₂) v₂ → post v₁ v₂ m₁ m₂) :
    Agree origin (Exec.constant index) (Exec.constant index) m₁ m₂ post :=
  bind (function related framed fun frame f _ head found functions =>
    orMalformed related (functions.chunk.constants.getElem? index) fun v₁ v₂ at_ _ same =>
      holds v₁ v₂ frame f head found at_ same)

/-- Linked values are keys both or neither. -/
theorem keys (related : Related origin p m₁ m₂) (same : v₁.Matches (Links p m₁ m₂) v₂) :
    Option.Rel (Named p m₁.heap m₂.heap) (v₁.handle?.bind m₁.heap.key?)
      (v₂.handle?.bind m₂.heap.key?) := by
  cases same with
  | nil | bool | number => exact .none
  | object linked => exact related.heaps.key? linked

theorem name {post : Key → Key → Machine → Machine → Prop} (related : Related origin p m₁ m₂)
    (framed : m₁.frames ≠ [])
    (holds : ∀ key₁ key₂, m₁.name? index = some key₁ → Named p m₁.heap m₂.heap key₁ key₂ →
      post key₁ key₂ m₁ m₂) :
    Agree origin (Exec.name index) (Exec.name index) m₁ m₂ post := by
  apply bind
  apply constant related framed
  intro v₁ v₂ frame f head found at_ same
  apply bind
  apply get
  refine orMalformed related (keys related same) fun key₁ key₂ eq _ named =>
    holds key₁ key₂ ?_ named
  simpa only [Machine.name?, head, found, at_, Option.bind_eq_bind, Option.bind_some] using eq

theorem textOf {post : String → String → Machine → Machine → Prop}
    (related : Related origin p m₁ m₂) (named : Named p m₁.heap m₂.heap key₁ key₂)
    (holds : ∀ text, post text text m₁ m₂) :
    Agree origin (Exec.textOf key₁) (Exec.textOf key₂) m₁ m₂ post := by
  apply bind
  apply get
  rw [related.heaps.text? named.linked]
  exact pure (holds _)

theorem getLocal {post : Value → Value → Machine → Machine → Prop}
    (related : Related origin p m₁ m₂) (framed : m₁.frames ≠ [])
    (holds : ∀ v₁ v₂, v₁.Matches (Links p m₁ m₂) v₂ → post v₁ v₂ m₁ m₂) :
    Agree origin (Exec.getLocal slot) (Exec.getLocal slot) m₁ m₂ post := by
  apply bind
  apply frame related framed
  intro f₁ f₂ _ _ frames
  rw [frames.base]
  exact bind (get (orMalformed related (related.linked.stack.getElem? _) fun v₁ v₂ _ _ same =>
    holds v₁ v₂ same))

theorem setLocal {post : Unit → Unit → Machine → Machine → Prop} (related : Related origin p m₁ m₂)
    (framed : m₁.frames ≠ []) (same : v₁.Matches (Links p m₁ m₂) v₂)
    (holds : ∀ stack₁ stack₂,
      Related origin p { m₁ with stack := stack₁ } { m₂ with stack := stack₂ } →
      post ⟨⟩ ⟨⟩ { m₁ with stack := stack₁ } { m₂ with stack := stack₂ }) :
    Agree origin (Exec.setLocal slot v₁) (Exec.setLocal slot v₂) m₁ m₂ post := by
  apply bind
  apply frame related framed
  intro f₁ f₂ _ _ frames
  rw [frames.base]
  refine bind (get (ite (by rw [related.stack.size]) (fun inside => ?_) fun _ => malformed related))
  exact setSlot related inside same fun related => holds _ _ related

theorem upvalue {post : Handle → Handle → Machine → Machine → Prop}
    (related : Related origin p m₁ m₂) (framed : m₁.frames ≠ [])
    (holds : ∀ h₁ h₂, Links p m₁ m₂ h₁ h₂ → m₁.heap.kind? h₁ = some .upvalue → post h₁ h₂ m₁ m₂) :
    Agree origin (Exec.upvalue index) (Exec.upvalue index) m₁ m₂ post := by
  apply bind
  apply frame related framed
  intro f₁ f₂ _ _ frames
  apply bind
  apply get
  -- The closures have captured matching variables, in the same order.
  have captured : Option.Rel (Links p m₁ m₂) ((m₁.heap.captured? f₁.closure).bind (·[index]?))
      ((m₂.heap.captured? f₂.closure).bind (·[index]?)) := by
    have arrays := related.heaps.captured? frames.closure
    generalize m₁.heap.captured? f₁.closure = captured₁ at arrays
    generalize m₂.heap.captured? f₂.closure = captured₂ at arrays
    cases arrays with
    | none => exact .none
    | some same => exact same.getElem? index
  apply orMalformed related captured
  intro h₁ h₂ found _ linked
  apply holds h₁ h₂ linked
  obtain ⟨upvalues, captured, found⟩ := Option.bind_eq_some_iff.mp found
  obtain ⟨function, reserved, object⟩ := get?_of_captured? captured
  exact (related.intact₁.heap.object _ _ object).2 h₁ (Array.mem_of_getElem? found)

/-! ## Instances and classes -/

/-- The instances are linked, with what they hold. -/
structure SameInstance (p : Pairing) (m₁ m₂ : Machine) (i₁ i₂ : Handle × Handle × Table) :
    Prop where
  linked : Links p m₁ m₂ i₁.1 i₂.1
  owner : Links p m₁ m₂ i₁.2.1 i₂.2.1
  fields : Alike p m₁.heap m₂.heap i₁.2.2 i₂.2.2
  found₁ : m₁.heap.get? i₁.1 = some (.inst i₁.2.1 i₁.2.2)
  found₂ : m₂.heap.get? i₂.1 = some (.inst i₂.2.1 i₂.2.2)

/-- The classes are linked, with what they hold. -/
structure SameClass (p : Pairing) (m₁ m₂ : Machine) (c₁ c₂ : Handle × Table) : Prop where
  linked : Links p m₁ m₂ c₁.1 c₂.1
  methods : Alike p m₁.heap m₂.heap c₁.2 c₂.2
  found₁ : ∃ name, m₁.heap.get? c₁.1 = some (.cls name c₁.2)
  found₂ : ∃ name, m₂.heap.get? c₂.1 = some (.cls name c₂.2)

theorem instance? {post : Option (Handle × Handle × Table) → Option (Handle × Handle × Table) →
      Machine → Machine → Prop} (related : Related origin p m₁ m₂)
    (same : v₁.Matches (Links p m₁ m₂) v₂)
    (holds : ∀ o₁ o₂, Option.Rel (SameInstance p m₁ m₂) o₁ o₂ →
      (∀ i, o₁ = some i → v₁.handle? = some i.1) → post o₁ o₂ m₁ m₂) :
    Agree origin (Exec.instance? v₁) (Exec.instance? v₂) m₁ m₂ post := by
  apply bind
  apply get
  apply pure
  cases same with
  | nil | bool | number => exact holds none none .none nofun
  | @object h₁ h₂ linked =>
    obtain ⟨o₁, o₂, found₁, found₂, matching⟩ := related.heaps.get? linked
    simp only [Value.handle?, Option.bind_eq_bind, Option.bind_some, Heap.instance?, found₁, found₂]
    cases matching with
    | inst owned same =>
      refine holds _ _ (.some ⟨linked, owned, ⟨same, ?_, ?_⟩, found₁, found₂⟩) ?_
      · exact (related.intact₁.heap.object h₁ _ found₁).2
      · exact (related.intact₂.heap.object h₂ _ found₂).2
      · rintro i ⟨⟩
        rfl
    | _ => exact holds none none .none nofun

theorem class? {post : Option (Handle × Table) → Option (Handle × Table) → Machine → Machine → Prop}
    (related : Related origin p m₁ m₂) (same : v₁.Matches (Links p m₁ m₂) v₂)
    (holds : ∀ o₁ o₂, Option.Rel (SameClass p m₁ m₂) o₁ o₂ → post o₁ o₂ m₁ m₂) :
    Agree origin (Exec.class? v₁) (Exec.class? v₂) m₁ m₂ post := by
  apply bind
  apply get
  apply pure
  cases same with
  | nil | bool | number => exact holds none none .none
  | @object h₁ h₂ linked =>
    obtain ⟨o₁, o₂, found₁, found₂, matching⟩ := related.heaps.get? linked
    simp only [Value.handle?, Option.bind_eq_bind, Option.bind_some, Heap.methods?, found₁, found₂]
    cases matching with
    | cls named same =>
      refine holds _ _ (.some ⟨linked, ⟨same, ?_, ?_⟩, ⟨_, found₁⟩, ⟨_, found₂⟩⟩)
      · exact (related.intact₁.heap.object h₁ _ found₁).2
      · exact (related.intact₂.heap.object h₂ _ found₂).2
    | _ => exact holds none none .none

/-! ## The heap -/

theorem pauseAt {post : Unit → Unit → Machine → Machine → Prop} (holds : post ⟨⟩ ⟨⟩ m₁ m₂) :
    Agree origin (Exec.pauseAt h₁) (Exec.pauseAt h₂) m₁ m₂ post := holds

/-- Matching objects are allocated under linked handles. -/
theorem allocate {post : Handle → Handle → Machine → Machine → Prop} {o₁ o₂ : Object}
    (related : Related origin p m₁ m₂) (same : o₁.Matches (Links p m₁ m₂) o₂)
    (other : o₁.kind ≠ .string) (closed : ∀ slot, o₁ ≠ .upvalue (.opened slot))
    (fits₁ : o₁.Sound .live m₁.heap ⟨m₁.heap.cells.size⟩)
    (fits₂ : o₂.Sound .live m₂.heap ⟨m₂.heap.cells.size⟩)
    (holds : ∀ q h₁ h₂ after₁ after₂, (∀ h k, p h k → q h k) →
      m₁.heap.Allocated o₁ (m₁.roots ++ []) h₁ after₁ →
      m₂.heap.Allocated o₂ (m₂.roots ++ []) h₂ after₂ →
      Related origin q { m₁ with heap := after₁ } { m₂ with heap := after₂ } →
      Linked q after₁ after₂ h₁ h₂ →
        post h₁ h₂ { m₁ with heap := after₁ } { m₂ with heap := after₂ }) :
    Agree origin (Exec.allocate o₁) (Exec.allocate o₂) m₁ m₂ post := by
  have related' := related.allocate [] [] same other closed fits₁ fits₂
  have allocated₁ := allocated_allocate related.intact₁.heap.clean o₁ (m₁.roots ++ [])
  have allocated₂ := allocated_allocate related.intact₂.heap.clean o₂ (m₂.roots ++ [])
  refine bind (modifyGet (bind (pauseAt (pure ?_))))
  exact holds _ _ _ _ _ (fun _ _ paired => .inl paired) allocated₁ allocated₂ related'
    ⟨.inr ⟨rfl, rfl⟩, contains_of_get? allocated₁.get?, contains_of_get? allocated₂.get?⟩

/-- The strings with a text are linked, even if only one of the heaps had it before. -/
theorem intern {post : Handle → Handle → Machine → Machine → Prop} {text : String}
    (related : Related origin p m₁ m₂)
    (holds : ∀ q h₁ h₂ after₁ after₂,
      Related origin q { m₁ with heap := after₁ } { m₂ with heap := after₂ } →
      Linked q after₁ after₂ h₁ h₂ →
        post h₁ h₂ { m₁ with heap := after₁ } { m₂ with heap := after₂ }) :
    Agree origin (Exec.intern text) (Exec.intern text) m₁ m₂ post := by
  have related' := related.intern text [] []
  have found₁ := text?_intern related.intact₁.heap.canonical related.intact₁.heap.clean text
    (m₁.roots ++ [])
  have found₂ := text?_intern related.intact₂.heap.canonical related.intact₂.heap.clean text
    (m₂.roots ++ [])
  refine bind (modifyGet (bind (pauseAt (pure ?_))))
  exact holds _ _ _ _ _ related'
    ⟨.inr ⟨rfl, rfl⟩, contains_of_text? found₁, contains_of_text? found₂⟩

/-- The captured variables of a slot are linked, and what is paired stays so. -/
theorem captureSlot {post : Handle → Handle → Machine → Machine → Prop}
    (related : Related origin p m₁ m₂)
    (holds : ∀ q h₁ h₂ m₁' m₂', (∀ h k, p h k → q h k) → Related origin q m₁' m₂' →
      Links q m₁' m₂' h₁ h₂ → m₁'.heap.kind? h₁ = some .upvalue →
      (∀ k ∈ m₁.roots, m₁.heap.contains k → m₁.heap.Keeps m₁'.heap k) → m₁'.stack = m₁.stack →
      m₂'.stack = m₂.stack → m₁'.frames = m₁.frames → post h₁ h₂ m₁' m₂') :
    Agree origin (Exec.captureSlot slot) (Exec.captureSlot slot) m₁ m₂ post := by
  apply bind
  apply get
  -- Both machines have the slot captured, or neither has.
  have options := related.linked.openUpvalue? slot
  cases found₁ : m₁.openUpvalue? slot with
  | some h₁ =>
    cases found₂ : m₂.openUpvalue? slot with
    | none =>
      rw [found₁, found₂] at options
      cases options
    | some h₂ =>
      rw [found₁, found₂] at options
      cases options with
      | some linked =>
        have kind := related.intact₁.captured _ (Machine.mem_of_openUpvalue? found₁)
        exact pure (holds p h₁ h₂ m₁ m₂ (fun _ _ paired => paired) related linked kind
          (fun k _ _ => .refl m₁.heap k) rfl rfl rfl)
  | none =>
    cases found₂ : m₂.openUpvalue? slot with
    | some h₂ =>
      rw [found₁, found₂] at options
      cases options
    | none =>
      have related' := related.capture found₁ found₂
      have allocated := allocated_allocate related.intact₁.heap.clean (.upvalue (.opened slot))
        (m₁.roots ++ [])
      have kind₁ := related'.intact₁.captured _ (Machine.mem_insertOpen_iff.mpr (.inl rfl))
      have kind₂ := related'.intact₂.captured _ (Machine.mem_insertOpen_iff.mpr (.inl rfl))
      refine bind (bind (modifyGet (bind (pauseAt (pure ?_)))))
      refine bind (modify (pure ?_))
      exact holds _ _ _ _ _ (fun _ _ paired => .inl paired) related'
        ⟨.inr ⟨rfl, rfl⟩, contains_of_kind? kind₁, contains_of_kind? kind₂⟩ kind₁
        (fun k mem live => Machine.keeps_of_allocated allocated mem live) rfl rfl rfl

end Agree

end Exec

end ScriptMachine
