/-
# Laws of actions

What an action ensures from an intact machine is found by running through it:
there is one law for each way to put actions together and one for each
primitive action, and a law asks for what is to hold afterwards in the machine
that the action leaves.

Where an action stops, the machine has to be intact too, and no promise may be
broken. Where it pauses, an object has just been allocated, and the machine has
to be sound.

## Main definitions

* `Exec.Halted` — what holds where an action stops
* `Exec.Ensures` — what holds after an action

## Main results

* `Ensures.bind`, `Ensures.guard` — actions one after the other
* `Ensures.push`, `Ensures.allocate`, … — the primitive actions
-/

import ScriptMachine.Proofs.Machine.Soundness

namespace ScriptMachine

open Heap

/-! ## Parts of a stack -/

theorem mem_of_mem_pop {α : Type} {a : α} {xs : Array α} (mem : a ∈ xs.pop) : a ∈ xs := by
  rw [← Array.mem_toList_iff, Array.toList_pop] at mem
  exact Array.mem_toList_iff.mp (List.dropLast_subset _ mem)

theorem mem_of_mem_take {α : Type} {a : α} {xs : Array α} {n : Nat} (mem : a ∈ xs.take n) :
    a ∈ xs := by
  rw [← Array.mem_toList_iff, Array.take_eq_extract, Array.toList_extract] at mem
  exact Array.mem_toList_iff.mp (List.mem_of_mem_drop (List.mem_of_mem_take mem))

/-- The machine with another instruction pointer in its innermost frame. -/
def Machine.withIp (m : Machine) (ip : Nat) : Machine :=
  { m with frames := m.frames.modifyHead ({ · with ip }) }

/-- Frames stand for the same objects wherever their instruction pointers are. -/
theorem Machine.Intact.withIp {c : Custody} {m : Machine} (intact : m.Intact c) (ip : Nat) :
    (m.withIp ip).Intact c := by
  have old {f : Frame} (mem : f ∈ m.frames.modifyHead ({ · with ip })) :
      ∃ f' ∈ m.frames, f.closure = f'.closure ∧ f.function = f'.function := by
    cases eq : m.frames with
    | nil => simp [eq] at mem
    | cons first rest =>
      rw [eq, List.modifyHead_cons] at mem
      rcases List.mem_cons.mp mem with rfl | mem
      · exact ⟨first, List.mem_cons_self, rfl, rfl⟩
      · exact ⟨f, List.mem_cons_of_mem _ mem, rfl, rfl⟩
  refine intact.withFrames (fun f mem => ?_) fun f mem => ?_
  · obtain ⟨f', mem', same, -⟩ := old mem
    rw [same]
    exact intact.closures f' mem'
  · obtain ⟨f', mem', -, same⟩ := old mem
    rw [same]
    exact intact.functions f' mem'

theorem Machine.frames_withIp_ne_nil {m : Machine} (framed : m.frames ≠ []) (ip : Nat) :
    (m.withIp ip).frames ≠ [] := by
  obtain ⟨f, rest, eq⟩ := List.exists_cons_of_ne_nil framed
  simp [withIp, eq]

/-- If there are frames, one is innermost. -/
theorem Machine.exists_head? {m : Machine} (framed : m.frames ≠ []) :
    ∃ f, m.frames.head? = some f :=
  Option.ne_none_iff_exists'.mp fun idle => framed (List.head?_eq_none_iff.mp idle)

/-- The instruction that the machine reads next, if it can be read. -/
def Machine.next? (m : Machine) : Option Instruction := do
  let frame ← m.frames.head?
  let f ← m.heap.function? frame.function
  (Reader.instruction f.chunk.code frame.ip).1.toOption

/-- The string constant of the innermost frame's function at an index, as a key. -/
def Machine.name? (m : Machine) (index : Nat) : Option Key := do
  let frame ← m.frames.head?
  let f ← m.heap.function? frame.function
  let value ← f.chunk.constant? index
  value.handle?.bind m.heap.key?

theorem Machine.name?_withIp (m : Machine) (ip index : Nat) :
    (m.withIp ip).name? index = m.name? index := by
  unfold Machine.name? Machine.withIp
  cases m.frames <;> rfl

/-- A string constant is a live string. -/
theorem Machine.key?_of_name? {m : Machine} {index : Nat} {key : Key}
    (named : m.name? index = some key) :
    m.heap.key? key.handle = some key := by
  obtain ⟨f, -, named⟩ := Option.bind_eq_some_iff.mp named
  obtain ⟨function, -, named⟩ := Option.bind_eq_some_iff.mp named
  obtain ⟨v, -, named⟩ := Option.bind_eq_some_iff.mp named
  obtain ⟨h, -, live⟩ := Option.bind_eq_some_iff.mp named
  exact handle_of_key? live ▸ live

namespace Exec

/-- What holds where an action stops. -/
def Halted (c : Custody) (watch : Option Handle) (m : Machine) : Stop → Prop
  | .finished v => m.Intact c ∧ v.Held c m.heap ∧ m.frames = []
  | .failed _ => m.Intact c
  | .broken _ => False
  | .paused => watch ≠ none ∧ m.Sound c

theorem Halted.sound {c : Custody} {watch : Option Handle} {m : Machine} {stop : Stop}
    (halted : Halted c watch m stop) : m.Sound c := by
  cases stop with
  | finished v => exact halted.1.toSound
  | failed kind => exact halted.toSound
  | broken fault => exact halted.elim
  | paused => exact halted.2

/-- Without a handle to pause at, an action stops in an intact machine. -/
theorem Halted.intact {c : Custody} {m : Machine} {stop : Stop} (halted : Halted c none m stop) :
    m.Intact c := by
  cases stop with
  | finished v => exact halted.1
  | failed kind => exact halted
  | broken fault => exact halted.elim
  | paused => exact absurd rfl halted.1

/-- From this machine the action leads to what is asked for, or it stops in order. -/
def Ensures {α : Type} (c : Custody) (watch : Option Handle) (x : Exec α) (m : Machine)
    (post : α → Machine → Prop) : Prop :=
  match x watch m with
  | .ok a m' => post a m'
  | .error stop m' => Halted c watch m' stop

variable {α β : Type} {c : Custody} {watch : Option Handle} {m m' : Machine} {x : Exec α}
  {stop : Stop} {post : α → Machine → Prop} {a : α} {v : Value} {h : Handle}
  {slot count : Nat}

/-- After an action that goes through, the next one starts where it leads. -/
theorem bind_eq (ran : x watch m = .ok a m') (f : α → Exec β) :
    (x >>= f) watch m = f a watch m' := by
  change EStateM.bind (x watch) (fun a => f a watch) m = _
  rw [EStateM.bind, ran]

/-- After an action that stops, nothing is done any more. -/
theorem bind_error (ran : x watch m = .error stop m') (f : α → Exec β) :
    (x >>= f) watch m = .error stop m' := by
  change EStateM.bind (x watch) (fun a => f a watch) m = _
  rw [EStateM.bind, ran]

namespace Ensures

/-! ## Actions one after the other -/

theorem pure (holds : post a m) : Ensures c watch (Pure.pure a) m post := holds

theorem bind {f : α → Exec β} {post : β → Machine → Prop}
    (first : Ensures c watch x m fun a m' => Ensures c watch (f a) m' post) :
    Ensures c watch (x >>= f) m post := by
  unfold Ensures at first ⊢
  cases ran : x watch m with
  | ok a m' =>
    rw [ran] at first
    rw [bind_eq ran]
    exact first
  | error stop m' =>
    rw [ran] at first
    rw [bind_error ran]
    exact first

theorem of_ok (ensures : Ensures c watch x m post) (ran : x watch m = .ok a m') :
    post a m' := by
  rw [Ensures, ran] at ensures
  exact ensures

theorem of_error (ensures : Ensures c watch x m post)
    (ran : x watch m = .error stop m') : Halted c watch m' stop := by
  rw [Ensures, ran] at ensures
  exact ensures

theorem discard {post : Unit → Machine → Prop}
    (first : Ensures c watch x m fun _ m' => post ⟨⟩ m') :
    Ensures c watch (Functor.discard x) m post :=
  bind (f := fun _ => Pure.pure ()) first

theorem get {post : Machine → Machine → Prop} (holds : post m m) :
    Ensures c watch MonadState.get m post := holds

theorem modify {f : Machine → Machine} {post : Unit → Machine → Prop} (holds : post ⟨⟩ (f m)) :
    Ensures c watch (modify f) m post := holds

theorem set {post : Unit → Machine → Prop} (holds : post ⟨⟩ m') :
    Ensures c watch (MonadStateOf.set m') m post := holds

theorem modifyGet {f : Machine → α × Machine} (holds : post (f m).1 (f m).2) :
    Ensures c watch (modifyGet f) m post := holds

theorem modifyHeap {f : Heap → Heap} {post : Unit → Machine → Prop}
    (holds : post ⟨⟩ { m with heap := f m.heap }) :
    Ensures c watch (Exec.modifyHeap f) m post := holds

theorem ite {p : Prop} [Decidable p] {y : Exec α} (yes : p → Ensures c watch x m post)
    (no : ¬ p → Ensures c watch y m post) : Ensures c watch (if p then x else y) m post := by
  split
  next holds => exact yes holds
  next fails => exact no fails

/-! ## Stopping -/

variable {kind : ErrorKind} {flaw : Malformed} {fault : Fault} {o : Option α}

theorem fail (intact : m.Intact c) : Ensures c watch (Exec.fail kind) m post := intact

theorem malformed (intact : m.Intact c) : Ensures c watch (Exec.malformed flaw) m post := intact

/-- A test that stops with an error, and what comes after it. -/
theorem guard {p : Prop} [Decidable p] {post : Unit → Machine → Prop} {f : Unit → Exec Unit}
    (intact : m.Intact c) (no : ¬ p → Ensures c watch (f ⟨⟩) m post) :
    Ensures c watch (if p then Exec.fail kind >>= f else f ⟨⟩) m post :=
  ite (fun _ => bind (fail intact)) no

theorem orFail (intact : m.Intact c) (holds : ∀ a, o = some a → post a m) :
    Ensures c watch (Exec.orFail kind o) m post := by
  cases o with
  | none => exact fail intact
  | some a => exact pure (holds a rfl)

theorem orMalformed (intact : m.Intact c) (holds : ∀ a, o = some a → post a m) :
    Ensures c watch (Exec.orMalformed flaw o) m post := by
  cases o with
  | none => exact malformed intact
  | some a => exact pure (holds a rfl)

theorem orBroken (eq : o = some a) (holds : post a m) :
    Ensures c watch (Exec.orBroken fault o) m post := by
  subst eq
  exact pure holds

/-! ## The stack -/

theorem push {post : Unit → Machine → Prop} (intact : m.Intact c) (held : v.Held c m.heap)
    (holds : ({ m with stack := m.stack.push v } : Machine).Intact c →
      post ⟨⟩ { m with stack := m.stack.push v }) :
    Ensures c watch (Exec.push v) m post := by
  refine bind (get (guard intact fun _ => holds (intact.withStack fun w mem => ?_)))
  rcases Array.mem_push.mp mem with mem | rfl
  · exact intact.stack w mem
  · exact held

theorem peek {post : Value → Machine → Prop} {distance : Nat} (intact : m.Intact c)
    (holds : ∀ v, v ∈ m.stack → distance < m.stack.size →
      m.stack[m.stack.size - 1 - distance]? = some v → post v m) :
    Ensures c watch (Exec.peek distance) m post := by
  refine bind (get (ite (fun inside => ?_) fun _ => malformed intact))
  exact orMalformed intact fun v found => holds v (Array.mem_of_getElem? found) inside found

theorem pop {post : Value → Machine → Prop} (intact : m.Intact c)
    (holds : ∀ v, v.Held c m.heap → m.stack.back? = some v →
      ({ m with stack := m.stack.pop } : Machine).Intact c →
        post v { m with stack := m.stack.pop }) :
    Ensures c watch Exec.pop m post := by
  refine bind (peek intact fun v mem inside found => bind (modify (pure (holds v ?_ ?_ ?_))))
  · exact intact.stack v mem
  · rwa [Array.back?, ← Nat.sub_zero (m.stack.size - 1)]
  · exact intact.withStack fun w mem => intact.stack w (mem_of_mem_pop mem)

theorem setSlot {post : Unit → Machine → Prop} (intact : m.Intact c) (inside : slot < m.stack.size)
    (held : v.Held c m.heap)
    (holds : ({ m with stack := m.stack.setIfInBounds slot v } : Machine).Intact c →
      post ⟨⟩ { m with stack := m.stack.setIfInBounds slot v }) :
    Ensures c watch (Exec.setSlot slot v) m post := by
  refine bind (get (ite (fun _ => holds (intact.withStack fun w mem => ?_)) fun outside => ?_))
  · rcases Array.mem_or_eq_of_mem_setIfInBounds mem with mem | rfl
    · exact intact.stack w mem
    · exact held
  · exact absurd inside outside

theorem valuesAbove {post : Array Value → Machine → Prop} (inside : slot < m.stack.size)
    (holds : post (m.stack.extract (slot + 1) m.stack.size) m) :
    Ensures c watch (Exec.valuesAbove slot) m post :=
  bind (get (ite (fun _ => pure holds) fun outside => absurd inside outside))

theorem truncate {post : Unit → Machine → Prop} (intact : m.Intact c)
    (holds : ({ m with stack := m.stack.take slot } : Machine).Intact c →
      post ⟨⟩ { m with stack := m.stack.take slot }) :
    Ensures c watch (Exec.truncate slot) m post := by
  exact modify (holds (intact.withStack fun w mem => intact.stack w (mem_of_mem_take mem)))

theorem calleeSlot {post : Nat → Machine → Prop} (intact : m.Intact c)
    (holds : count < m.stack.size → post (m.stack.size - 1 - count) m) :
    Ensures c watch (Exec.calleeSlot count) m post :=
  bind (get (ite (fun inside => pure (holds inside)) fun _ => malformed intact))

/-! ## The frame -/

theorem frame {post : Frame → Machine → Prop} (framed : m.frames ≠ [])
    (holds : ∀ f, f ∈ m.frames → m.frames.head? = some f → post f m) :
    Ensures c watch Exec.frame m post := by
  obtain ⟨f, head⟩ := Machine.exists_head? framed
  exact bind (get (orBroken head (holds f (List.mem_of_mem_head? head) head)))

theorem setIp {post : Unit → Machine → Prop} {ip : Nat} (intact : m.Intact c)
    (holds : (m.withIp ip).Intact c → post ⟨⟩ (m.withIp ip)) :
    Ensures c watch (Exec.setIp ip) m post := modify (holds (intact.withIp ip))

/-- The innermost frame runs a function, whose constants are as promised. -/
theorem function {post : Function → Machine → Prop} (intact : m.Intact c) (framed : m.frames ≠ [])
    (holds : ∀ frame f, m.frames.head? = some frame → m.heap.function? frame.function = some f →
      (∀ v ∈ f.chunk.constants, v.Held c m.heap) → post f m) :
    Ensures c watch Exec.function m post := by
  apply bind
  apply frame framed
  intro frame mem head
  apply bind
  apply get
  obtain ⟨f, found, object⟩ := function?_of_kind? (intact.functions frame mem)
  exact orBroken found (holds frame f head found (intact.heap.object _ _ object).2)

theorem fetch {post : Instruction → Machine → Prop} (intact : m.Intact c) (framed : m.frames ≠ [])
    (holds : ∀ instruction ip, m.next? = some instruction → (m.withIp ip).Intact c →
      (m.withIp ip).frames ≠ [] → post instruction (m.withIp ip)) :
    Ensures c watch Exec.fetch m post := by
  apply bind
  apply function intact framed
  intro frame f head found _
  apply bind
  apply Ensures.frame framed
  intro frame' _ head'
  obtain rfl : frame = frame' := by simpa [head] using head'
  apply bind
  apply setIp intact
  intro intact
  split
  next instruction read =>
    have read : (Reader.instruction f.chunk.code frame.ip).1 = .ok instruction := read
    refine pure (holds instruction _ ?_ intact (Machine.frames_withIp_ne_nil framed _))
    simp only [Machine.next?, head, found, read, Option.bind_eq_bind, Option.bind_some,
      Except.toOption]
  next => exact malformed intact

theorem fetchCaptures {post : List Capture → Machine → Prop} (intact : m.Intact c)
    (framed : m.frames ≠ []) (holds : ∀ captures ip, (m.withIp ip).Intact c →
      (m.withIp ip).frames ≠ [] → post captures (m.withIp ip)) :
    Ensures c watch (Exec.fetchCaptures count) m post := by
  apply bind
  apply function intact framed
  intro _ _ _ _ _
  apply bind
  apply frame framed
  intro _ _ _
  apply bind
  apply setIp intact
  intro intact
  exact orMalformed intact fun captures _ =>
    holds captures _ intact (Machine.frames_withIp_ne_nil framed _)

/-! ## What operands stand for -/

variable {index : Nat}

theorem constant {post : Value → Machine → Prop} (intact : m.Intact c) (framed : m.frames ≠ [])
    (holds : ∀ v frame f, m.frames.head? = some frame →
      m.heap.function? frame.function = some f → f.chunk.constant? index = some v →
        v.Held c m.heap → post v m) :
    Ensures c watch (Exec.constant index) m post :=
  bind (function intact framed fun frame f head found held => orMalformed intact fun v at_ =>
    holds v frame f head found at_ (held v (Array.mem_of_getElem? at_)))

theorem name {post : Key → Machine → Prop} (intact : m.Intact c) (framed : m.frames ≠ [])
    (holds : ∀ key, m.name? index = some key → m.heap.key? key.handle = some key → post key m) :
    Ensures c watch (Exec.name index) m post := by
  apply bind
  apply constant intact framed
  intro v frame f head found at_ _
  apply bind
  apply get
  refine orMalformed intact fun key eq => holds key ?_ ?_
  · simpa only [Machine.name?, head, found, at_, Option.bind_eq_bind, Option.bind_some] using eq
  · obtain ⟨h, -, live⟩ := Option.bind_eq_some_iff.mp eq
    exact handle_of_key? live ▸ live

theorem textOf {post : String → Machine → Prop} {key : Key} (holds : ∀ text, post text m) :
    Ensures c watch (Exec.textOf key) m post := bind (get (pure (holds _)))

theorem getLocal {post : Value → Machine → Prop} (intact : m.Intact c) (framed : m.frames ≠ [])
    (holds : ∀ v, v.Held c m.heap → post v m) : Ensures c watch (Exec.getLocal slot) m post :=
  bind (frame framed fun _ _ _ => bind (get (orMalformed intact fun v found =>
    holds v (intact.stack v (Array.mem_of_getElem? found)))))

theorem setLocal {post : Unit → Machine → Prop} (intact : m.Intact c) (framed : m.frames ≠ [])
    (held : v.Held c m.heap)
    (holds : ∀ stack, ({ m with stack } : Machine).Intact c → post ⟨⟩ { m with stack }) :
    Ensures c watch (Exec.setLocal slot v) m post :=
  bind (frame framed fun _ _ _ => bind (get (ite
    (fun inside => setSlot intact inside held fun intact => holds _ intact)
    fun _ => malformed intact)))

theorem upvalue {post : Handle → Machine → Prop} (intact : m.Intact c) (framed : m.frames ≠ [])
    (holds : ∀ h, m.heap.kind? h = some .upvalue → post h m) :
    Ensures c watch (Exec.upvalue index) m post := by
  apply bind
  apply frame framed
  intro f mem _
  apply bind
  apply get
  apply orMalformed intact
  intro h found
  obtain ⟨upvalues, captured, found⟩ := Option.bind_eq_some_iff.mp found
  obtain ⟨function, reserved, object⟩ := get?_of_captured? captured
  exact holds h ((intact.heap.object _ _ object).2 h (Array.mem_of_getElem? found))

theorem instance? {post : Option (Handle × Handle × Table) → Machine → Prop}
    (holds : ∀ o, (∀ h owner fields, o = some (h, owner, fields) →
      v.handle? = some h ∧ m.heap.get? h = some (.inst owner fields)) → post o m) :
    Ensures c watch (Exec.instance? v) m post := by
  refine bind (get (pure (holds _ fun h owner fields eq => ?_)))
  obtain ⟨h', handle, eq⟩ := Option.bind_eq_some_iff.mp eq
  obtain ⟨pair, found, eq⟩ := Option.bind_eq_some_iff.mp eq
  obtain ⟨rfl, rfl⟩ : h' = h ∧ pair = (owner, fields) := by simpa using eq
  exact ⟨handle, get?_of_instance? found⟩

theorem class? {post : Option (Handle × Table) → Machine → Prop}
    (holds : ∀ o, (∀ h methods, o = some (h, methods) →
      v.handle? = some h ∧ ∃ name, m.heap.get? h = some (.cls name methods)) → post o m) :
    Ensures c watch (Exec.class? v) m post := by
  refine bind (get (pure (holds _ fun h methods eq => ?_)))
  obtain ⟨h', handle, eq⟩ := Option.bind_eq_some_iff.mp eq
  obtain ⟨table, found, eq⟩ := Option.bind_eq_some_iff.mp eq
  obtain ⟨rfl, rfl⟩ : h' = h ∧ table = methods := by simpa using eq
  exact ⟨handle, get?_of_methods? found⟩

/-! ## The heap -/

theorem pauseAt {post : Unit → Machine → Prop} (sound : m.Sound c) (holds : post ⟨⟩ m) :
    Ensures c watch (Exec.pauseAt h) m post := by
  change Ensures c watch (if watch = some h then throw .paused else Pure.pure ()) m post
  refine ite (fun here => ⟨?_, sound⟩) fun _ => pure holds
  rw [here]
  exact Option.some_ne_none h

theorem allocate {post : Handle → Machine → Prop} {object : Object} (intact : m.Intact c)
    (other : object.kind ≠ .string) (closed : ∀ slot, object ≠ .upvalue (.opened slot))
    (fits : object.Sound c m.heap ⟨m.heap.cells.size⟩)
    (holds : ∀ h after, m.heap.Allocated object (m.roots ++ []) h after →
      ({ m with heap := after } : Machine).Intact c → post h { m with heap := after }) :
    Ensures c watch (Exec.allocate object) m post := by
  have intact' := intact.allocate [] other closed fits
  have allocated := allocated_allocate intact.heap.clean object (m.roots ++ [])
  exact bind (modifyGet (bind (pauseAt intact'.toSound (pure (holds _ _ allocated intact')))))

theorem intern {post : Handle → Machine → Prop} {text : String} (intact : m.Intact c)
    (holds : ∀ h after, after.text? h = some text →
      ({ m with heap := after } : Machine).Intact c → post h { m with heap := after }) :
    Ensures c watch (Exec.intern text) m post := by
  have intact' := intact.intern text []
  have found := text?_intern intact.heap.canonical intact.heap.clean text (m.roots ++ [])
  exact bind (modifyGet (bind (pauseAt intact'.toSound (pure (holds _ _ found intact')))))

/-- The captured variable of a slot is in the list, or it is allocated and put there. What the
machine holds is kept. -/
theorem captureSlot {post : Handle → Machine → Prop} (intact : m.Intact c)
    (holds : ∀ h m', m'.heap.kind? h = some .upvalue → m'.Intact c → m'.stack = m.stack →
      m'.frames = m.frames → (∀ k ∈ m.roots, m.heap.contains k → m.heap.Keeps m'.heap k) →
        post h m') :
    Ensures c watch (Exec.captureSlot slot) m post := by
  apply bind
  apply get
  split
  next h found =>
    have live := intact.captured _ (Machine.mem_of_openUpvalue? found)
    exact pure (holds h m live intact rfl rfl fun k _ _ => .refl m.heap k)
  next new =>
    have intact' := intact.capture new
    have sound : Machine.Sound c (m.allocate (.upvalue (.opened slot)) []).2 :=
      intact.toSound.allocate [] nofun trivial
    have allocated := allocated_allocate intact.heap.clean (.upvalue (.opened slot)) (m.roots ++ [])
    refine bind (bind (modifyGet (bind (pauseAt sound (pure ?_)))))
    refine bind (modify (pure (holds _ _ ?_ intact' rfl rfl ?_)))
    · exact intact'.captured _ (Machine.mem_insertOpen_iff.mpr (.inl rfl))
    · exact fun k mem live => Machine.keeps_of_allocated allocated mem live

end Ensures

end Exec

end ScriptMachine
