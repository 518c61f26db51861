/-
# Handles are passed on

Byte code makes up no handles. An instruction takes a handle from the stack, from a constant, from a
captured variable or from a table, or the heap hands it out; then it puts it into another of these
places or into a new object. Only a host function could give one that was never handed out, and it
promises not to. So a machine that holds such handles alone goes on to do so.

Nothing else is asked of the machine: objects may have been freed, tables may miss their keys, and
handles may stand for objects of any kind.

## Main definitions

* `Machine.Dated` — the heap is dated, and the machine holds no handle that was not handed out
* `Exec.Hands` — what an action gives from such a machine

## Main results

* `Hands.perform`, `Hands.step`, `Hands.enter` — instructions pass handles on
* `Dated.conclude` — so does the end of a run
-/

import ScriptMachine.Proofs.Heap.Dating
import ScriptMachine.Proofs.Machine.Changes

namespace ScriptMachine

open Heap

namespace Machine

variable {m : Machine} {n n' : Nat} {heap : Heap} {object : Object} {h : Handle} {v : Value}
  {stack : Array Value} {slot : Nat}

/-- The heap has handed out so many handles, and neither it nor the machine refers to others. -/
structure Dated (n : Nat) (m : Machine) : Prop where
  heap : m.heap.Dated n
  stack : ∀ v ∈ m.stack, v.Below n
  globals : m.globals.Below n
  captured : ∀ e ∈ m.openUpvalues, e.upvalue.index < n

/-- The machine is dated, whatever the number of its handles. -/
def Timely (m : Machine) : Prop := ∃ n, m.Dated n

namespace Dated

theorem timely (dated : m.Dated n) : m.Timely := ⟨n, dated⟩

theorem withHeap (dated : m.Dated n) (heap' : heap.Dated n') (le : n ≤ n') :
    Dated n' { m with heap } where
  heap := heap'
  stack v mem := (dated.stack v mem).mono le
  globals := dated.globals.mono le
  captured e mem := Nat.lt_of_lt_of_le (dated.captured e mem) le

theorem withStack (dated : m.Dated n) (below : ∀ v ∈ stack, v.Below n) :
    Dated n { m with stack } := { dated with stack := below }

theorem push (dated : m.Dated n) (below : v.Below n) :
    Dated n { m with stack := m.stack.push v } :=
  dated.withStack fun w mem => by
    obtain mem | rfl := Array.mem_push.mp mem
    · exact dated.stack w mem
    · exact below

theorem pop (dated : m.Dated n) : Dated n { m with stack := m.stack.pop } :=
  dated.withStack fun w mem => dated.stack w (mem_of_mem_pop mem)

theorem take (dated : m.Dated n) (slot : Nat) : Dated n { m with stack := m.stack.take slot } :=
  dated.withStack fun w mem => dated.stack w (mem_of_mem_take mem)

theorem setSlot (dated : m.Dated n) (below : v.Below n) (slot : Nat) :
    Dated n { m with stack := m.stack.setIfInBounds slot v } :=
  dated.withStack fun w mem => by
    obtain mem | rfl := Array.mem_or_eq_of_mem_setIfInBounds mem
    · exact dated.stack w mem
    · exact below

theorem withFrames (dated : m.Dated n) (frames : List Frame) : Dated n { m with frames } :=
  { dated with }

theorem withGlobals {globals : Table} (dated : m.Dated n) (below : globals.Below n) :
    Dated n { m with globals } := { dated with globals := below }

theorem withSink (dated : m.Dated n) (sink : Sink) : Dated n { m with sink } := { dated with }

theorem withEvents (dated : m.Dated n) (events : List ExecutionEvent) :
    Dated n { m with events } := { dated with }

theorem withUptime (dated : m.Dated n) (uptime : Number) : Dated n { m with uptime } :=
  { dated with }

theorem withOpen {entries : List OpenUpvalue} (dated : m.Dated n)
    (below : ∀ e ∈ entries, e.upvalue.index < n) : Dated n { m with openUpvalues := entries } :=
  { dated with captured := below }

theorem insertOpen {e : OpenUpvalue} (dated : m.Dated n) (lt : e.upvalue.index < n) :
    Dated n { m with openUpvalues := Machine.insertOpen e m.openUpvalues } :=
  dated.withOpen fun e' mem => by
    obtain rfl | mem := mem_insertOpen_iff.mp mem
    · exact lt
    · exact dated.captured e' mem

theorem allocate (dated : m.Dated n) (extra : List Handle) (below : object.Below n) :
    (m.allocate object extra).1.index = n ∧ (m.allocate object extra).2.Dated (n + 1) := by
  obtain ⟨index, heap'⟩ := dated.heap.allocate (m.roots ++ extra) below
  exact ⟨index, dated.withHeap heap' (Nat.le_succ n)⟩

theorem intern (dated : m.Dated n) (text : String) (extra : List Handle) :
    ∃ n', n ≤ n' ∧ (m.intern text extra).1.index < n' ∧ (m.intern text extra).2.Dated n' := by
  obtain ⟨n', le, lt, heap'⟩ := dated.heap.intern text (m.roots ++ extra)
  exact ⟨n', le, lt, dated.withHeap heap' le⟩

theorem defineNative (dated : m.Dated n) (native : Native) : (m.defineNative native).Timely := by
  obtain ⟨n', -, lt, dated⟩ := dated.intern native.name []
  have closed : (Object.native native).Below n' := fun h mem => by cases mem
  obtain ⟨index, dated⟩ := dated.allocate [(m.intern native.name []).1] closed
  refine ⟨n' + 1, dated.withGlobals ?_⟩
  exact dated.globals.insert (Nat.lt_succ_of_lt lt)
    (Value.below_object (index ▸ Nat.lt_succ_self n'))

/-! ## Closing captured variables -/

theorem closeAll (dated : m.Dated n) (entries : List OpenUpvalue) :
    (entries.foldl (closeOne m.stack) m.heap).Dated n := by
  have closed (slot : Nat) : (Object.upvalue (.closed (m.stack[slot]?.getD .nil))).Below n := by
    cases found : m.stack[slot]? with
    | none => exact fun h mem => by cases mem
    | some v => exact fun h mem =>
      dated.stack v (Array.mem_of_getElem? found) h (Option.mem_toList.mp mem)
  suffices all : ∀ heap : Heap, heap.Dated n →
      (entries.foldl (closeOne m.stack) heap).Dated n from all _ dated.heap
  induction entries with
  | nil => exact fun _ heap' => heap'
  | cons e rest ih =>
    refine fun heap heap' => ih _ ?_
    rw [closeOne]
    split
    · exact heap'.setUpvalue e.upvalue (closed e.slot)
    · exact heap'

theorem closeFrom (dated : m.Dated n) (slot : Nat) : (m.closeFrom slot).Dated n := by
  rw [closeFrom_eq]
  exact (dated.withHeap (dated.closeAll _) (Nat.le_refl n)).withOpen fun e mem =>
    dated.captured e ((List.dropWhile_sublist _).subset mem)

theorem reset (dated : m.Dated n) : m.reset.Dated n := by
  have none : ∀ v ∈ (#[] : Array Value), v.Below n := fun v mem =>
    absurd mem (Array.not_mem_empty v)
  exact ((dated.closeFrom 0).withStack none).withFrames []

theorem record (dated : m.Dated n) (event : ExecutionEvent) : (m.record event).Dated n := by
  rw [Machine.record]
  split
  · exact dated.withEvents _
  · exact dated

theorem conclude (dated : m.Dated n) (stop : Stop) : (m.conclude stop).2.Dated n := by
  unfold Machine.conclude
  split
  · exact dated
  · exact dated
  · exact dated
  · split
    · exact dated
    · exact (dated.record _).reset

/-! ## What the heap refers to -/

theorem constant {f : Function} (dated : m.Dated n) (found : m.heap.function? h = some f)
    (mem : v ∈ f.chunk.constants) : v.Below n := by
  intro k eq
  refine dated.heap.below h _ (get?_of_function? found) k (List.mem_append_right _ ?_)
  exact List.mem_filterMap.mpr ⟨v, Array.mem_toList_iff.mpr mem, eq⟩

theorem fields {owner : Handle} {fields : Table} (dated : m.Dated n)
    (found : m.heap.get? h = some (.inst owner fields)) : fields.Below n :=
  fun k mem => dated.heap.below h _ found k (List.mem_cons_of_mem _ mem)

theorem methods {methods : Table} (dated : m.Dated n)
    (found : m.heap.methods? h = some methods) : methods.Below n := by
  obtain ⟨name, found⟩ := get?_of_methods? found
  exact fun k mem => dated.heap.below h _ found k (List.mem_cons_of_mem _ mem)

theorem upvalues {upvalues : Array Handle} (dated : m.Dated n)
    (found : m.heap.captured? h = some upvalues) : ∀ u ∈ upvalues, u.index < n := by
  obtain ⟨f, reserved, found⟩ := get?_of_captured? found
  exact fun u mem => dated.heap.below h _ found u
    (List.mem_cons_of_mem _ (Array.mem_toList_iff.mpr mem))

theorem receiver {receiver : Value} {method : Handle} (dated : m.Dated n)
    (found : m.heap.get? h = some (.bound receiver method)) : receiver.Below n :=
  fun k eq => dated.heap.below h _ found k
    (List.mem_append_left _ (Option.mem_toList.mpr eq))

theorem closed (dated : m.Dated n) (found : m.heap.get? h = some (.upvalue (.closed v))) :
    v.Below n :=
  fun k eq => dated.heap.below h _ found k (Option.mem_toList.mpr eq)

end Dated

end Machine

namespace Exec

open Machine

variable {α β : Type} {watch : Option Handle} {m m' : Machine} {n : Nat} {x : Exec α}
  {post : α → Machine → Prop} {v : Value} {h cls : Handle} {key : Key} {slot count index : Nat}

/-- From this machine the action leads to what is asked for, or it stops in a dated machine. -/
def Hands (watch : Option Handle) (x : Exec α) (m : Machine) (post : α → Machine → Prop) : Prop :=
  match x watch m with
  | .ok a m' => post a m'
  | .error _ m' => m'.Timely

/-- What holds after an instruction. -/
def Passed (_ : Unit) (m : Machine) : Prop := m.Timely

namespace Hands

/-! ## Actions one after the other -/

theorem of_ok {a : α} (hands : Hands watch x m post) (ran : x watch m = .ok a m') : post a m' := by
  rw [Hands, ran] at hands
  exact hands

theorem of_error {stop : Stop} (hands : Hands watch x m post)
    (ran : x watch m = .error stop m') : m'.Timely := by
  rw [Hands, ran] at hands
  exact hands

theorem pure {a : α} (holds : post a m) : Hands watch (Pure.pure a) m post := holds

theorem bind {f : α → Exec β} {post : β → Machine → Prop}
    (first : Hands watch x m fun a m' => Hands watch (f a) m' post) :
    Hands watch (x >>= f) m post := by
  unfold Hands at first ⊢
  cases ran : x watch m with
  | ok a m' =>
    rw [ran] at first
    rw [bind_eq ran]
    exact first
  | error stop m' =>
    rw [ran] at first
    rw [bind_error ran]
    exact first

/-- An action that changes nothing may be asked for what it gives alone. -/
theorem of_reads (reads : x.Reads) (dated : m.Dated n) (holds : ∀ a, post a m) :
    Hands watch x m post := by
  have same := reads watch m
  unfold Hands
  cases ran : x watch m <;>
    · rw [ran] at same
      obtain rfl := same
      first | exact holds _ | exact dated.timely

theorem read {f : α → Exec β} {post : β → Machine → Prop} (reads : x.Reads) (dated : m.Dated n)
    (next : ∀ a, Hands watch (f a) m post) : Hands watch (x >>= f) m post :=
  bind (of_reads reads dated next)

theorem get_bind {f : Machine → Exec β} {post : β → Machine → Prop}
    (next : Hands watch (f m) m post) : Hands watch (MonadState.get >>= f) m post := next

theorem modify {f : Machine → Machine} {post : Unit → Machine → Prop} (holds : post ⟨⟩ (f m)) :
    Hands watch (modify f) m post := holds

theorem set {post : Unit → Machine → Prop} (holds : post ⟨⟩ m') :
    Hands watch (MonadStateOf.set m') m post := holds

theorem modifyGet {f : Machine → α × Machine} (holds : post (f m).1 (f m).2) :
    Hands watch (modifyGet f) m post := holds

theorem modifyHeap {f : Heap → Heap} {post : Unit → Machine → Prop}
    (holds : post ⟨⟩ { m with heap := f m.heap }) : Hands watch (Exec.modifyHeap f) m post := holds

theorem discard {post : Unit → Machine → Prop} (first : Hands watch x m fun _ m' => post ⟨⟩ m') :
    Hands watch (Functor.discard x) m post :=
  bind (f := fun _ => Pure.pure ()) first

theorem ite {p : Prop} [Decidable p] {y : Exec α} (yes : p → Hands watch x m post)
    (no : ¬ p → Hands watch y m post) : Hands watch (if p then x else y) m post := by
  split
  next holds => exact yes holds
  next fails => exact no fails

/-! ## Stopping -/

variable {kind : ErrorKind} {flaw : Malformed} {fault : Fault} {o : Option α}

theorem fail (dated : m.Dated n) : Hands watch (Exec.fail kind) m post := dated.timely

theorem malformed (dated : m.Dated n) : Hands watch (Exec.malformed flaw) m post := dated.timely

theorem broken (dated : m.Dated n) :
    Hands watch (throwThe Stop (.broken fault) : Exec α) m post := dated.timely

/-- A test that stops with an error, and what comes after it. -/
theorem guard {p : Prop} [Decidable p] {post : Unit → Machine → Prop} {f : Unit → Exec Unit}
    (dated : m.Dated n) (no : ¬ p → Hands watch (f ⟨⟩) m post) :
    Hands watch (if p then Exec.fail kind >>= f else f ⟨⟩) m post :=
  ite (fun _ => bind (fail dated)) no

theorem orFail (dated : m.Dated n) (holds : ∀ a, o = some a → post a m) :
    Hands watch (Exec.orFail kind o) m post := by
  cases o with
  | none => exact fail dated
  | some a => exact pure (holds a rfl)

theorem orMalformed (dated : m.Dated n) (holds : ∀ a, o = some a → post a m) :
    Hands watch (Exec.orMalformed flaw o) m post := by
  cases o with
  | none => exact malformed dated
  | some a => exact pure (holds a rfl)

theorem orBroken (dated : m.Dated n) (holds : ∀ a, o = some a → post a m) :
    Hands watch (Exec.orBroken fault o) m post := by
  cases o with
  | none => exact broken dated
  | some a => exact pure (holds a rfl)

/-! ## The stack -/

theorem push {post : Unit → Machine → Prop} (dated : m.Dated n) (below : v.Below n)
    (holds : ∀ m', m'.Dated n → post ⟨⟩ m') : Hands watch (Exec.push v) m post :=
  get_bind (guard dated fun _ => set (holds _ (dated.push below)))

theorem peek {post : Value → Machine → Prop} {distance : Nat} (dated : m.Dated n)
    (holds : ∀ v, v.Below n → m.stack[m.stack.size - 1 - distance]? = some v → post v m) :
    Hands watch (Exec.peek distance) m post := by
  refine get_bind (ite (fun _ => orMalformed dated fun v found => ?_) fun _ => malformed dated)
  exact holds v (dated.stack v (Array.mem_of_getElem? found)) found

theorem pop {post : Value → Machine → Prop} (dated : m.Dated n)
    (holds : ∀ v m', v.Below n → m'.Dated n → post v m') : Hands watch Exec.pop m post :=
  bind (peek dated fun v below _ => bind (modify (pure (holds v _ below dated.pop))))

theorem drop {post : Unit → Machine → Prop} (dated : m.Dated n)
    (holds : ∀ m', m'.Dated n → post ⟨⟩ m') : Hands watch (Functor.discard Exec.pop) m post :=
  discard (pop dated fun _ m' _ dated' => holds m' dated')

theorem setSlot {post : Unit → Machine → Prop} (dated : m.Dated n) (below : v.Below n)
    (holds : slot < m.stack.size →
      Machine.Dated n { m with stack := m.stack.setIfInBounds slot v } →
        post ⟨⟩ { m with stack := m.stack.setIfInBounds slot v }) :
    Hands watch (Exec.setSlot slot v) m post :=
  get_bind (ite (fun inside => set (holds inside (dated.setSlot below slot)))
    fun _ => broken dated)

theorem valuesAbove {post : Array Value → Machine → Prop} (dated : m.Dated n)
    (holds : post (m.stack.extract (slot + 1) m.stack.size) m) :
    Hands watch (Exec.valuesAbove slot) m post :=
  get_bind (ite (fun _ => pure holds) fun _ => broken dated)

theorem truncate {post : Unit → Machine → Prop} (dated : m.Dated n)
    (holds : ∀ m', m'.Dated n → post ⟨⟩ m') : Hands watch (Exec.truncate slot) m post :=
  modify (holds _ (dated.take slot))

theorem calleeSlot {post : Nat → Machine → Prop} (dated : m.Dated n)
    (holds : count < m.stack.size → post (m.stack.size - 1 - count) m) :
    Hands watch (Exec.calleeSlot count) m post :=
  get_bind (ite (fun inside => pure (holds inside)) fun _ => malformed dated)

/-! ## The frame -/

theorem setIp {post : Unit → Machine → Prop} {ip : Nat} (dated : m.Dated n)
    (holds : ∀ m', m'.Dated n → post ⟨⟩ m') : Hands watch (Exec.setIp ip) m post :=
  modify (holds _ (dated.withFrames _))

theorem function {post : Function → Machine → Prop} (dated : m.Dated n)
    (holds : ∀ frame f, m.frames.head? = some frame → m.heap.function? frame.function = some f →
      post f m) : Hands watch Exec.function m post :=
  bind (bind (get_bind (orBroken dated fun frame head =>
    get_bind (orBroken dated fun f found => holds frame f head found))))

theorem fetchCaptures {post : List Capture → Machine → Prop} (dated : m.Dated n)
    (holds : ∀ captures m', m'.Dated n → post captures m') :
    Hands watch (Exec.fetchCaptures count) m post :=
  read .function dated fun _ => read .frame dated fun _ =>
    bind (setIp dated fun m' dated' => orMalformed dated' fun captures _ =>
      holds captures m' dated')

/-! ## What operands stand for -/

theorem constant {post : Value → Machine → Prop} (dated : m.Dated n)
    (holds : ∀ v frame f, m.frames.head? = some frame →
      m.heap.function? frame.function = some f → f.chunk.constant? index = some v →
        v.Below n → post v m) :
    Hands watch (Exec.constant index) m post :=
  bind (function dated fun frame f head found => orMalformed dated fun v at_ =>
    holds v frame f head found at_ (dated.constant found (Array.mem_of_getElem? at_)))

theorem name {post : Key → Machine → Prop} (dated : m.Dated n)
    (holds : ∀ key, m.name? index = some key → key.handle.index < n → post key m) :
    Hands watch (Exec.name index) m post := by
  refine bind (constant dated fun v frame f head found at_ below => get_bind ?_)
  refine orMalformed dated fun key eq => holds key ?_ ?_
  · simpa only [Machine.name?, head, found, at_, Option.bind_eq_bind, Option.bind_some] using eq
  · obtain ⟨h, handle, live⟩ := Option.bind_eq_some_iff.mp eq
    rw [handle_of_key? live]
    exact below h handle

theorem getLocal {post : Value → Machine → Prop} (dated : m.Dated n)
    (holds : ∀ v, v.Below n → post v m) : Hands watch (Exec.getLocal slot) m post :=
  read .frame dated fun _ => get_bind (orMalformed dated fun v found =>
    holds v (dated.stack v (Array.mem_of_getElem? found)))

theorem setLocal (dated : m.Dated n) (below : v.Below n) :
    Hands watch (Exec.setLocal slot v) m Passed :=
  read .frame dated fun _ => get_bind (ite (fun _ => setSlot dated below fun _ dated' =>
    dated'.timely) fun _ => malformed dated)

theorem upvalue {post : Handle → Machine → Prop} (dated : m.Dated n)
    (holds : ∀ h, h.index < n → post h m) : Hands watch (Exec.upvalue index) m post := by
  refine read .frame dated fun frame => get_bind (orMalformed dated fun h found => ?_)
  obtain ⟨upvalues, captured, found⟩ := Option.bind_eq_some_iff.mp found
  exact holds h (dated.upvalues captured h (Array.mem_of_getElem? found))

theorem instance? {post : Option (Handle × Handle × Table) → Machine → Prop} (dated : m.Dated n)
    (holds : ∀ o, (∀ h owner fields, o = some (h, owner, fields) →
      v.handle? = some h ∧ m.heap.get? h = some (.inst owner fields) ∧ fields.Below n) →
        post o m) : Hands watch (Exec.instance? v) m post := by
  refine get_bind (pure (holds _ fun h owner fields eq => ?_))
  obtain ⟨h', handle, eq⟩ := Option.bind_eq_some_iff.mp eq
  obtain ⟨pair, found, eq⟩ := Option.bind_eq_some_iff.mp eq
  obtain ⟨rfl, rfl⟩ : h' = h ∧ pair = (owner, fields) := by simpa using eq
  have found := get?_of_instance? found
  exact ⟨handle, found, dated.fields found⟩

theorem class? {post : Option (Handle × Table) → Machine → Prop} (dated : m.Dated n)
    (holds : ∀ o, (∀ h methods, o = some (h, methods) → methods.Below n) → post o m) :
    Hands watch (Exec.class? v) m post := by
  refine get_bind (pure (holds _ fun h methods eq => ?_))
  obtain ⟨h', -, eq⟩ := Option.bind_eq_some_iff.mp eq
  obtain ⟨table, found, eq⟩ := Option.bind_eq_some_iff.mp eq
  obtain ⟨rfl, rfl⟩ : h' = h ∧ table = methods := by simpa using eq
  exact dated.methods found

theorem method? {post : Option Handle → Machine → Prop} (dated : m.Dated n)
    (holds : ∀ o, (∀ h, o = some h → h.index < n) → post o m) :
    Hands watch (Exec.method? cls key) m post := by
  refine get_bind (pure (holds _ fun h eq => ?_))
  obtain ⟨v, eq, handle⟩ := Option.bind_eq_some_iff.mp eq
  obtain ⟨methods, found, eq⟩ := Option.bind_eq_some_iff.mp eq
  exact (dated.methods found).get? eq h handle

/-! ## The heap -/

theorem allocate {post : Handle → Machine → Prop} {object : Object} (dated : m.Dated n)
    (below : object.Below n) (holds : ∀ h m', h.index < n + 1 → m'.Dated (n + 1) → post h m') :
    Hands watch (Exec.allocate object) m post := by
  obtain ⟨index, dated'⟩ := dated.allocate [] below
  refine bind (modifyGet (read (.pauseAt _) dated' fun _ => pure (holds _ _ ?_ dated')))
  rw [index]
  exact Nat.lt_succ_self n

theorem intern {post : Handle → Machine → Prop} {text : String} (dated : m.Dated n)
    (holds : ∀ h m' n', h.index < n' → m'.Dated n' → post h m') :
    Hands watch (Exec.intern text) m post := by
  obtain ⟨n', -, lt, dated'⟩ := dated.intern text []
  exact bind (modifyGet (read (.pauseAt _) dated' fun _ => pure (holds _ _ n' lt dated')))

/-! ## Calls -/

theorem pushed (dated : m.Dated n) (below : v.Below n) : Hands watch (Exec.push v) m Passed :=
  push dated below fun _ dated' => dated'.timely

theorem dropped (dated : m.Dated n) : Hands watch (Functor.discard Exec.pop) m Passed :=
  drop dated fun _ dated' => dated'.timely

theorem replaceTop (dated : m.Dated n) (below : v.Below n) :
    Hands watch (do Functor.discard Exec.pop; Exec.push v) m Passed :=
  bind (drop dated fun _ dated' => pushed dated' below)

theorem replaceTwo (dated : m.Dated n) (below : v.Below n) :
    Hands watch (do Functor.discard Exec.pop; Functor.discard Exec.pop; Exec.push v) m Passed :=
  bind (drop dated fun _ dated' => replaceTop dated' below)

theorem call (dated : m.Dated n) : Hands watch (Exec.call h count) m Passed :=
  get_bind (bind (orFail dated fun _ _ => get_bind (bind (orBroken dated fun _ _ =>
    guard dated fun _ => get_bind (guard dated fun _ => bind (calleeSlot dated fun _ =>
      modify (dated.withFrames _).timely))))))

theorem construct {methods : Table} (dated : m.Dated n) (lt : cls.index < n) :
    Hands watch (Exec.construct cls methods slot count) m Passed := by
  have below : (Object.inst cls .empty).Below n :=
    List.forall_mem_cons.mpr ⟨lt, Table.below_empty⟩
  refine get_bind (bind (allocate dated below fun h m' lt dated' => ?_))
  refine bind (setSlot dated' (Value.below_object lt) fun _ dated' => ?_)
  split
  · exact call dated'
  · exact malformed dated'
  · exact ite (fun _ => fail dated') fun _ => pure dated'.timely

/-- Only a host function could give a handle that was not handed out. -/
theorem callValue (dated : m.Dated n) (below : v.Below n) (answers : m.Answers .issued v count) :
    Hands watch (Exec.callValue v count) m Passed := by
  refine bind (orFail dated fun h eq => bind (calleeSlot dated fun inside => get_bind ?_))
  split
  next receiver method found =>
    exact bind (setSlot dated (dated.receiver found) fun _ dated' => call dated')
  next => exact construct dated (below h eq)
  next => exact call dated
  next native found =>
    have result : (m.answer native count).Below n := by
      rw [← dated.heap.size]
      exact answers native ⟨h, eq, found⟩
    -- The arguments are all that lies above the callee.
    have above : m.stack.size - 1 - count + 1 = m.stack.size - count := by omega
    refine bind (valuesAbove dated (get_bind (bind (truncate dated fun m' dated' => ?_))))
    rw [above]
    exact pushed dated' result
  next => exact fail dated

theorem returnValue (dated : m.Dated n) : Hands watch Exec.returnValue m Passed := by
  refine bind (pop dated fun v m' below dated' => read .frame dated' fun f => ?_)
  have left := (dated'.withFrames m'.frames.tail).closeFrom f.base
  refine bind (modify (bind (modify (bind (truncate left fun m'' dated'' => get_bind ?_)))))
  exact ite (fun _ => dated''.timely) fun _ => pushed dated'' below

/-! ## Methods -/

theorem undefinedProperty (dated : m.Dated n) :
    Hands watch (Exec.undefinedProperty key : Exec α) m post :=
  read (.textOf key) dated fun _ => fail dated

theorem invokeFrom (dated : m.Dated n) : Hands watch (Exec.invokeFrom cls key count) m Passed := by
  refine read (.method? cls key) dated fun method => ?_
  split
  · exact call dated
  · exact undefinedProperty dated

theorem invoke (dated : m.Dated n)
    (answers : ∀ receiver h owner fields v,
      m.stack[m.stack.size - 1 - count]? = some receiver → receiver.handle? = some h →
        m.heap.get? h = some (.inst owner fields) → fields.get? key = some v →
          m.Answers .issued v count) :
    Hands watch (Exec.invoke key count) m Passed := by
  refine bind (peek dated fun receiver _ at_ => bind (instance? dated fun o same =>
    bind (orFail dated ?_)))
  rintro ⟨h, owner, fields⟩ eq
  obtain ⟨handle, object, known⟩ := same h owner fields eq
  simp only
  split
  next value field =>
    have below := known.get? field
    have answers := answers receiver h owner fields value at_ handle object field
    refine bind (calleeSlot dated fun inside => bind (setSlot dated below fun inside' dated' =>
      callValue dated' below ?_))
    -- The callee replaces the receiver, below the arguments.
    intro native isNative
    have same := answers native isNative
    simp only [Machine.answer, Array.size_setIfInBounds] at same ⊢
    rw [Array.setIfInBounds_def, dif_pos inside', Array.extract_set inside', dif_pos (by omega)]
    exact same
  next => exact invokeFrom dated

/-- The method comes from a table, so it is older than the bound method. -/
theorem bindMethod (dated : m.Dated n) : Hands watch (Exec.bindMethod cls key) m Passed := by
  refine bind (method? dated fun o known => ?_)
  split
  · exact undefinedProperty dated
  next method =>
    refine bind (peek dated fun receiver below _ => ?_)
    have fits : (Object.bound receiver method).Below n := by
      intro h mem
      obtain held | rfl := (List.mem_append.mp mem).imp_right List.mem_singleton.mp
      · exact below h (Option.mem_toList.mp held)
      · exact known h rfl
    exact bind (allocate dated fits fun h m' lt dated' =>
      replaceTop dated' (Value.below_object lt))

theorem getProperty (dated : m.Dated n) : Hands watch (Exec.getProperty key) m Passed := by
  refine bind (peek dated fun receiver _ _ => bind (instance? dated fun o same =>
    bind (orFail dated ?_)))
  rintro ⟨h, owner, fields⟩ eq
  obtain ⟨-, -, known⟩ := same h owner fields eq
  simp only
  split
  next field => exact replaceTop dated (known.get? field)
  next => exact bindMethod dated

theorem setProperty (dated : m.Dated n) (named : key.handle.index < n) :
    Hands watch (Exec.setProperty key) m Passed := by
  refine bind (peek dated fun target _ _ => bind (peek dated fun value below _ =>
    bind (instance? dated fun o same => bind (orFail dated ?_))))
  rintro ⟨h, owner, fields⟩ eq
  obtain ⟨-, -, known⟩ := same h owner fields eq
  have changed := (dated.heap.setFields h (known.insert named below)).recharge h
  exact bind (modifyHeap (replaceTwo (dated.withHeap changed (Nat.le_refl n)) below))

theorem popClass {post : Handle → Machine → Prop} (dated : m.Dated n)
    (holds : ∀ h m', m'.Dated n → post h m') : Hands watch Exec.popClass m post :=
  bind (pop dated fun v _ _ dated' => read (.class? v) dated' fun _ =>
    bind (orFail dated' fun ⟨h, _⟩ _ => pure (holds h _ dated')))

theorem inherit (dated : m.Dated n) : Hands watch Exec.inherit m Passed := by
  refine bind (peek dated fun superclass _ _ => bind (peek dated fun subclass _ _ =>
    bind (class? dated fun o known => bind (orFail dated ?_))))
  rintro ⟨_, inherited⟩ eq
  refine bind (class? dated fun o' known' => bind (orMalformed dated ?_))
  rintro ⟨h, methods⟩ eq'
  have all := (known' h methods eq').addAll (known _ inherited eq)
  have changed := (dated.heap.setMethods h all).recharge h
  exact bind (modifyHeap (dropped (dated.withHeap changed (Nat.le_refl n))))

theorem defineMethod (dated : m.Dated n) (named : key.handle.index < n) :
    Hands watch (Exec.defineMethod key) m Passed := by
  refine bind (peek dated fun method below _ => bind (peek dated fun cls _ _ =>
    bind (class? dated fun o known => bind (orMalformed dated ?_))))
  rintro ⟨h, methods⟩ eq
  have changed :=
    (dated.heap.setMethods h ((known h methods eq).insert named below)).recharge h
  exact bind (modifyHeap (dropped (dated.withHeap changed (Nat.le_refl n))))

/-! ## Closures and captured variables -/

theorem captureSlot {post : Handle → Machine → Prop} (dated : m.Dated n)
    (holds : ∀ h m' n', h.index < n' → m'.Dated n' → post h m') :
    Hands watch (Exec.captureSlot slot) m post := by
  refine get_bind ?_
  split
  next h found => exact pure (holds h m n (dated.captured _ (mem_of_openUpvalue? found)) dated)
  next =>
    refine bind (allocate dated (fun h mem => by cases mem) fun h m' lt dated' => ?_)
    exact bind (modify (pure (holds h _ (n + 1) lt (dated'.insertOpen lt))))

theorem resolve {post : Handle → Machine → Prop} {capture : Capture} (dated : m.Dated n)
    (holds : ∀ h m' n', h.index < n' → m'.Dated n' → post h m') :
    Hands watch (Exec.resolve capture) m post :=
  ite (fun _ => read .frame dated fun _ => captureSlot dated holds) fun _ =>
    upvalue dated fun h lt => holds h m n lt dated

theorem captureAll {captures : List Capture} (dated : m.Dated n) :
    Hands watch (Exec.captureAll h captures) m Passed := by
  -- Capturing a slot may allocate, so each capture begins with another number of handles.
  induction captures generalizing m n with
  | nil => exact pure dated.timely
  | cons capture rest ih =>
    refine bind (resolve dated fun u m' n' lt dated' => get_bind ?_)
    refine ite (fun _ => bind (broken dated')) fun _ => bind (modifyHeap ?_)
    exact ih (dated'.withHeap (dated'.heap.pushCaptured h lt) (Nat.le_refl n'))

theorem makeClosure (dated : m.Dated n) : Hands watch (Exec.makeClosure index) m Passed := by
  refine bind (constant dated fun v _ _ _ _ _ below => get_bind (bind (orMalformed dated ?_)))
  rintro ⟨h, f⟩ eq
  obtain ⟨h', handle, eq⟩ := Option.bind_eq_some_iff.mp eq
  obtain ⟨f', -, eq⟩ := Option.bind_eq_some_iff.mp eq
  obtain ⟨rfl, rfl⟩ : h' = h ∧ f' = f := by simpa using eq
  refine bind (fetchCaptures dated fun captures m' dated' => ?_)
  have fits : (Object.closure h' #[] f'.captureCount).Below n :=
    List.forall_mem_cons.mpr ⟨below h' handle, fun k mem => by cases mem⟩
  exact bind (allocate dated' fits fun closure m'' lt made =>
    bind (push made (Value.below_object lt) fun _ lying => captureAll lying))

theorem getUpvalue {post : Value → Machine → Prop} (dated : m.Dated n)
    (holds : ∀ v, v.Below n → post v m) : Hands watch (Exec.getUpvalue index) m post := by
  refine bind (upvalue dated fun h _ => get_bind (bind (orBroken dated fun object found => ?_)))
  split
  · exact orMalformed dated fun v at_ => holds v (dated.stack v (Array.mem_of_getElem? at_))
  next => exact pure (holds _ (dated.closed found))
  · exact malformed dated

theorem setUpvalue (dated : m.Dated n) : Hands watch (Exec.setUpvalue index) m Passed := by
  refine bind (upvalue dated fun h _ => bind (peek dated fun value below _ =>
    get_bind (bind (orBroken dated fun object _ => ?_))))
  split
  · exact ite (fun _ => setSlot dated below fun _ dated' => dated'.timely) fun _ =>
      malformed dated
  · have closed : (Object.upvalue (.closed value)).Below n :=
      fun k mem => below k (Option.mem_toList.mp mem)
    exact modifyHeap (dated.withHeap (dated.heap.setUpvalue h closed) (Nat.le_refl n)).timely
  · exact malformed dated

theorem closeTop (dated : m.Dated n) : Hands watch Exec.closeTop m Passed :=
  get_bind (ite (fun _ => bind (malformed dated)) fun _ =>
    bind (modify (dropped (dated.closeFrom _))))

/-! ## Operators, globals and jumps -/

theorem binary {g : Number → Number → Value} (dated : m.Dated n)
    (plain : ∀ a b, (g a b).handle? = none) : Hands watch (Exec.binary g) m Passed := by
  refine bind (peek dated fun _ _ _ => bind (peek dated fun _ _ _ => ?_))
  split
  · exact replaceTwo dated (Value.below_of_handle? (plain _ _))
  · exact fail dated

theorem join {a b : Value} (dated : m.Dated n) : Hands watch (Exec.join a b) m Passed := by
  refine get_bind (guard dated fun _ => ?_)
  split
  · exact bind (intern dated fun _ _ _ lt dated' => replaceTwo dated' (Value.below_object lt))
  · exact fail dated

theorem add (dated : m.Dated n) : Hands watch Exec.add m Passed := by
  refine bind (peek dated fun _ _ _ => bind (peek dated fun _ _ _ => ?_))
  split
  · exact replaceTwo dated (Value.below_of_handle? rfl)
  · exact join dated

theorem negate (dated : m.Dated n) : Hands watch Exec.negate m Passed := by
  refine bind (peek dated fun _ _ _ => ?_)
  split
  · exact replaceTop dated (Value.below_of_handle? rfl)
  · exact fail dated

theorem print (dated : m.Dated n) : Hands watch Exec.print m Passed :=
  bind (pop dated fun _ _ _ dated' => get_bind (bind (set (ite
    (fun _ => fail (dated'.withSink _)) fun _ => pure (dated'.withSink _).timely))))

theorem getGlobal (dated : m.Dated n) : Hands watch (Exec.getGlobal key) m Passed := by
  refine get_bind ?_
  split
  next found => exact pushed dated (dated.globals.get? found)
  next => exact read (.textOf key) dated fun _ => fail dated

theorem storeGlobal {post : Bool → Machine → Prop} (dated : m.Dated n)
    (named : key.handle.index < n) (below : v.Below n)
    (holds : ∀ new m', m'.Dated n → post new m') : Hands watch (Exec.storeGlobal key v) m post :=
  modifyGet (holds _ _ (dated.withGlobals (dated.globals.insert named below)))

theorem defineGlobal (dated : m.Dated n) (named : key.handle.index < n) :
    Hands watch (Exec.defineGlobal key) m Passed :=
  bind (peek dated fun _ below _ => bind (discard (storeGlobal dated named below
    fun _ _ dated' => dropped dated')))

theorem setGlobal (dated : m.Dated n) (named : key.handle.index < n) :
    Hands watch (Exec.setGlobal key) m Passed := by
  refine bind (peek dated fun _ below _ => bind (storeGlobal dated named below
    fun new m' dated' => ite (fun _ => bind (modify ?_)) fun _ => pure dated'.timely))
  -- A name that was new is taken out again before the error.
  have erased := dated'.withGlobals (dated'.globals.erase key)
  exact read (.textOf key) erased fun _ => fail erased

theorem jump {distance : Nat} (dated : m.Dated n) : Hands watch (Exec.jump distance) m Passed :=
  read .frame dated fun _ => setIp dated fun _ dated' => dated'.timely

theorem jumpBack {distance : Nat} (dated : m.Dated n) :
    Hands watch (Exec.jumpBack distance) m Passed :=
  read .frame dated fun _ => ite (fun _ => bind (malformed dated)) fun _ =>
    setIp dated fun _ dated' => dated'.timely

/-! ## Steps -/

theorem perform {op : Opcode} {a b : Nat} (dated : m.Dated n)
    (honest : ∀ callee count, m.callee? op a b = some (callee, count) →
      m.Answers .issued callee count) : Hands watch (Exec.perform op a b) m Passed := by
  cases op with
  | constant | longConstant =>
    exact bind (constant dated fun _ _ _ _ _ _ below => pushed dated below)
  | pushNil | pushTrue | pushFalse => exact pushed dated (Value.below_of_handle? rfl)
  | pop => exact dropped dated
  | getLocal => exact bind (getLocal dated fun _ below => pushed dated below)
  | setLocal => exact bind (peek dated fun _ below _ => setLocal dated below)
  | getGlobal => exact bind (name dated fun _ _ _ => getGlobal dated)
  | defineGlobal => exact bind (name dated fun _ _ named => defineGlobal dated named)
  | setGlobal => exact bind (name dated fun _ _ named => setGlobal dated named)
  | getUpvalue => exact bind (getUpvalue dated fun _ below => pushed dated below)
  | setUpvalue => exact setUpvalue dated
  | getProperty => exact bind (name dated fun _ _ _ => getProperty dated)
  | setProperty => exact bind (name dated fun _ _ named => setProperty dated named)
  | getSuper =>
    exact bind (name dated fun _ _ _ => bind (popClass dated fun _ _ dated' =>
      bindMethod dated'))
  | equal =>
    exact bind (pop dated fun _ _ _ dated' => bind (pop dated' fun _ _ _ dated'' =>
      pushed dated'' (Value.below_of_handle? rfl)))
  | greater | less | subtract | multiply | divide => exact binary dated fun _ _ => rfl
  | add => exact add dated
  | not =>
    exact bind (pop dated fun _ _ _ dated' => pushed dated' (Value.below_of_handle? rfl))
  | negate => exact negate dated
  | print => exact print dated
  | jump => exact jump dated
  | jumpIfFalse =>
    exact bind (peek dated fun _ _ _ => ite (fun _ => jump dated) fun _ => pure dated.timely)
  | loop => exact jumpBack dated
  | call =>
    refine bind (peek dated fun callee below at_ => callValue dated below (honest callee a ?_))
    rw [callee?, at_, Option.map_some]
  | invoke =>
    refine bind (name dated fun key named _ => invoke dated ?_)
    intro receiver h owner fields v at_ handle object field
    have found : m.heap.instance? h = some (owner, fields) := by rw [Heap.instance?, object]
    refine honest v b ?_
    simp only [callee?, named, at_, handle, found, field, Option.bind_eq_bind, Option.bind_some,
      Option.pure_def]
  | superInvoke =>
    exact bind (name dated fun _ _ _ => bind (popClass dated fun _ _ dated' =>
      invokeFrom dated'))
  | closure => exact makeClosure dated
  | closeUpvalue => exact closeTop dated
  | newClass =>
    refine bind (name dated fun key _ named => ?_)
    have fits : (Object.cls key.handle .empty).Below n :=
      List.forall_mem_cons.mpr ⟨named, Table.below_empty⟩
    exact bind (allocate dated fits fun h m' lt dated' => pushed dated' (Value.below_object lt))
  | inherit => exact inherit dated
  | method => exact bind (name dated fun _ _ named => defineMethod dated named)
  | ret => exact returnValue dated

/-- An action may begin in a machine where others have led. -/
theorem after {m₁ : Machine} {y : Exec α} (eq : x watch m = y watch m₁)
    (hands : Hands watch y m₁ post) : Hands watch x m post := by
  rw [Hands, eq]
  exact hands

theorem step (dated : m.Dated n) (honest : m.Honest .issued) : Hands watch Exec.step m Passed := by
  cases head : m.frames.head? with
  | none =>
    rw [Hands, step_of_frames_eq_nil (List.head?_eq_none_iff.mp head)]
    exact dated.timely
  | some f =>
    cases found : m.heap.function? f.function with
    | none =>
      rw [Hands, step_of_lost watch head found]
      exact dated.timely
    | some function =>
      cases next : m.next? with
      | some instruction =>
        obtain ⟨events, eq⟩ := step_eq_nextIp watch next
        have begun : Machine.Dated n { m.withIp m.nextIp with events } :=
          (dated.withFrames _).withEvents events
        refine after eq (perform begun fun callee count called => ?_)
        have called : (m.withIp m.nextIp).callee? instruction.opcode
          (instruction.operands.getD 0 0) (instruction.operands.getD 1 0) =
            some (callee, count) := called
        rw [callee?_withIp] at called
        exact honest callee count (by
          rw [nextCallee?, next, Option.bind_eq_bind, Option.bind_some]
          exact called)
      | none =>
        -- The instruction cannot be read, so the step stops there.
        obtain ⟨events, traced⟩ := step_traced watch head found
        have fetched := fetch_eq (m := { m with events }) watch head found
        simp only [Machine.next?, head, found, Option.bind_eq_bind, Option.bind_some] at next
        cases read : (Reader.instruction function.chunk.code f.ip).1 with
        | ok instruction =>
          rw [read] at next
          cases next
        | error e =>
          rw [read] at fetched
          refine after traced ?_
          rw [Hands, bind_error fetched]
          exact ((dated.withEvents events).withFrames _).timely

theorem enter (dated : m.Dated n) : Hands watch (Machine.enter h) m Passed := by
  refine get_bind (bind (discard (orFail dated fun f found => ?_)))
  -- A function that can be entered is live.
  have lt := dated.heap.lt_of_contains (contains_of_get? (get?_of_function? found))
  have fits : (Object.closure h #[] 0).Below n :=
    List.forall_mem_cons.mpr ⟨lt, fun k mem => by cases mem⟩
  refine bind (push dated (Value.below_object lt) fun _ lying => bind (allocate lying fits
    fun closure _ new made => bind (drop made fun _ made => ?_)))
  exact bind (push made (Value.below_object new) fun _ made => call made)

end Hands

end Exec

end ScriptMachine
