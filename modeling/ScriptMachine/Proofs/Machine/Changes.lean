/-
# What a machine does, piece by piece

Whatever an instruction does, it does by a few kinds of changes: it puts an
object into the heap, or changes one or charges it anew, it pushes a value
below the limit of the stack or makes the stack shorter, it pushes a frame
below the limit of the frames or leaves some, or it replaces the globals, the
list of open captured variables, the sink or the record of events. Values are
overwritten where they lie, so a stack that is no longer than before stands for
that as well.

An instruction does less than any such change. The objects that it puts into the
heap are no host functions, have their places reserved and no properties yet, it
changes objects in few ways only, and it charges them anew when their size may
change. And some of this is left to few instructions: only a closure is filled
with captured variables, only a property is set in an instance, only methods and
inheritance change a class, and only definitions and assignments the globals.

What every such change preserves holds of all machines that come about with a
host, and of all states that their steps go through.

## Main definitions

* `Machine.Change`, `Machine.Changes` — one change, and any number of them
* `Machine.Turn`, `Machine.Turns` — one change by an instruction with an opcode, and any number
* `Exec.Reads` — an action that changes nothing
* `Exec.Leads` — an action that gets along with these changes

## Main results

* `Leads.perform`, `Leads.step`, `Leads.enter` — instructions get along with these changes
* `Occurs.invariant` — what each change preserves holds of every machine
-/

import Mathlib.Logic.Relation
import ScriptMachine.Proofs.Machine.Occurring

namespace ScriptMachine

open Heap

/-- The places that are reserved in an object suffice for its captured variables. -/
def Object.Roomy (object : Object) : Prop :=
  ∀ f upvalues reserved, object = .closure f upvalues reserved → upvalues.size ≤ reserved

/-- The table of a class or of an instance. -/
def Object.table? : Object → Option Table
  | cls _ methods => some methods
  | inst _ fields => some fields
  | _ => none

/-- A class has no methods yet, an instance has no fields yet. -/
def Object.Bare (object : Object) : Prop := ∀ t, object.table? = some t → t = .empty

theorem Object.bare_cls (name : Handle) : (cls name .empty).Bare :=
  fun _ eq => (Option.some.inj eq).symm

theorem Object.bare_inst (owner : Handle) : (inst owner .empty).Bare :=
  fun _ eq => (Option.some.inj eq).symm

/-- A closure that has captured nothing yet has room. -/
theorem Object.roomy_closure (f : Handle) (reserved : Nat) : (closure f #[] reserved).Roomy := by
  rintro _ _ _ ⟨⟩
  exact Nat.zero_le _

/-- A closure whose places have grown with its captured variables has room. -/
theorem Object.roomy_grown (f : Handle) (upvalues : Array Handle) :
    (closure f upvalues (grownPlaces upvalues.size)).Roomy := by
  rintro _ _ _ ⟨⟩
  unfold grownPlaces
  split
  next none => exact none.le
  next =>
    have below : 2 * upvalues.size - 1 < 2 ^ (Nat.log2 (2 * upvalues.size - 1) + 1) :=
      Nat.lt_log2_self
    rw [Nat.pow_succ] at below
    have room : upvalues.size ≤ 2 ^ Nat.log2 (2 * upvalues.size - 1) := by omega
    exact room.trans (Nat.le_max_right ..)

namespace Machine

variable {m m' : Machine}

/-- One change of a machine. -/
inductive Change (m : Machine) : Machine → Prop
  | allocate (object : Object) (extra : List Handle) (other : object.kind ≠ .string) :
    Change m (m.allocate object extra).2
  | intern (text : String) (extra : List Handle) : Change m (m.intern text extra).2
  | collect : Change m m.collect
  /-- An object is changed that neither was a string nor becomes one. -/
  | modify (h : Handle) (f : Object → Object) (other : ∀ object, m.heap.get? h = some object →
      f object = object ∨ object.kind ≠ .string ∧ (f object).kind ≠ .string) :
    Change m { m with heap := m.heap.modify h f }
  | recharge (h : Handle) : Change m { m with heap := m.heap.recharge h }
  | push (v : Value) (room : m.stack.size < m.config.stackLimit) :
    Change m { m with stack := m.stack.push v }
  | stack (stack : Array Value) (le : stack.size ≤ m.stack.size) : Change m { m with stack }
  | enter (frame : Frame) (room : m.frames.length < m.config.framesMax) :
    Change m { m with frames := frame :: m.frames }
  | frames (frames : List Frame) (le : frames.length ≤ m.frames.length) : Change m { m with frames }
  | globals (globals : Table) : Change m { m with globals }
  | openUpvalues (openUpvalues : List OpenUpvalue) : Change m { m with openUpvalues }
  | sink (sink : Sink) : Change m { m with sink }
  | events (events : List ExecutionEvent) : Change m { m with events }
  | uptime (uptime : Number) : Change m { m with uptime }

/-- Any number of changes, one after the other. -/
def Changes : Machine → Machine → Prop := Relation.ReflTransGen Change

namespace Changes

theorem refl (m : Machine) : m.Changes m := Relation.ReflTransGen.refl

theorem trans {m'' : Machine} (changes : m.Changes m') (changes' : m'.Changes m'') :
    m.Changes m'' := Relation.ReflTransGen.trans changes changes'

theorem one (change : m.Change m') : m.Changes m' := Relation.ReflTransGen.single change

/-- What each change preserves, any number of them preserves. -/
theorem induct {p : Machine → Prop} (changes : m.Changes m')
    (preserves : ∀ m m', p m → Change m m' → p m') (holds : p m) : p m' := by
  induction changes with
  | refl => exact holds
  | tail _ change ih => exact preserves _ _ ih change

/-- An object of a kind that is not that of strings is replaced by one of the same kind. -/
theorem replace {h : Handle} {f : Object → Object} (other : ∀ object,
    f object = object ∨ object.kind ≠ .string ∧ (f object).kind ≠ .string) :
    m.Changes { m with heap := m.heap.modify h f } :=
  one (.modify h f fun object _ => other object)

theorem setUpvalue {h : Handle} {u : Upvalue} (found : m.heap.get? h = some (.upvalue u))
    (u' : Upvalue) : m.Changes { m with heap := m.heap.setUpvalue h u' } := by
  refine one (.modify h _ fun object same => ?_)
  obtain rfl : Object.upvalue u = object := Option.some.inj (found.symm.trans same)
  exact .inr ⟨nofun, nofun⟩

theorem setFields (m : Machine) (h : Handle) (fields : Table) :
    m.Changes { m with heap := m.heap.setFields h fields } := by
  refine replace fun object => ?_
  cases object <;> first | exact .inl rfl | exact .inr ⟨nofun, nofun⟩

theorem setMethods (m : Machine) (h : Handle) (methods : Table) :
    m.Changes { m with heap := m.heap.setMethods h methods } := by
  refine replace fun object => ?_
  cases object <;> first | exact .inl rfl | exact .inr ⟨nofun, nofun⟩

theorem pushCaptured (m : Machine) (h upvalue : Handle) :
    m.Changes { m with heap := m.heap.pushCaptured h upvalue } := by
  refine replace fun object => ?_
  cases object <;> first | exact .inl rfl | exact .inr ⟨nofun, nofun⟩

theorem recharge (m : Machine) (h : Handle) :
    m.Changes { m with heap := m.heap.recharge h } := one (.recharge h)

theorem defineNative (m : Machine) (native : Native) : m.Changes (m.defineNative native) :=
  (one (.intern native.name [])).trans
    ((one (.allocate (.native native) _ nofun)).trans (one (.globals _)))

end Changes

/-! ## Changes by instructions -/

/-- One change of a machine in the course of an instruction, with the opcode of this, or of
something else. -/
inductive Turn (op : Option Opcode) (m : Machine) : Machine → Prop
  | allocate (object : Object) (extra : List Handle) (other : object.kind ≠ .string)
    (roomy : object.Roomy) (bare : object.Bare) (scripted : object.kind ≠ .native) :
    Turn op m (m.allocate object extra).2
  | intern (text : String) (extra : List Handle) : Turn op m (m.intern text extra).2
  | setUpvalue {h : Handle} {u : Upvalue} (found : m.heap.get? h = some (.upvalue u))
    (u' : Upvalue) : Turn op m { m with heap := m.heap.setUpvalue h u' }
  | pushCaptured (h upvalue : Handle) (entitled : op = some .closure) :
    Turn op m { m with heap := m.heap.pushCaptured h upvalue }
  /-- An instance is charged anew as soon as its fields are changed. -/
  | setFields (h : Handle) (fields : Table) (entitled : op = some .setProperty) :
    Turn op m { m with heap := (m.heap.setFields h fields).recharge h }
  /-- A class is charged anew as soon as its methods are changed. -/
  | setMethods (h : Handle) (methods : Table) (entitled : op = some .inherit ∨ op = some .method) :
    Turn op m { m with heap := (m.heap.setMethods h methods).recharge h }
  | push (v : Value) (room : m.stack.size < m.config.stackLimit) :
    Turn op m { m with stack := m.stack.push v }
  | stack (stack : Array Value) (le : stack.size ≤ m.stack.size) : Turn op m { m with stack }
  | enter (frame : Frame) (room : m.frames.length < m.config.framesMax) :
    Turn op m { m with frames := frame :: m.frames }
  | frames (frames : List Frame) (le : frames.length ≤ m.frames.length) :
    Turn op m { m with frames }
  | globals (globals : Table) (entitled : op = some .defineGlobal ∨ op = some .setGlobal) :
    Turn op m { m with globals }
  | openUpvalues (openUpvalues : List OpenUpvalue) : Turn op m { m with openUpvalues }
  | sink (sink : Sink) : Turn op m { m with sink }
  | events (events : List ExecutionEvent) : Turn op m { m with events }

/-- Any number of changes in the course of an instruction. -/
def Turns (op : Option Opcode) : Machine → Machine → Prop := Relation.ReflTransGen (Turn op)

theorem Turn.changes {op : Option Opcode} (turn : m.Turn op m') : m.Changes m' := by
  cases turn with
  | allocate object extra other => exact .one (.allocate object extra other)
  | intern text extra => exact .one (.intern text extra)
  | setUpvalue found u' => exact .setUpvalue found u'
  | pushCaptured h upvalue => exact .pushCaptured m h upvalue
  | setFields h fields => exact (Changes.setFields m h fields).trans (.recharge _ h)
  | setMethods h methods => exact (Changes.setMethods m h methods).trans (.recharge _ h)
  | push v room => exact .one (.push v room)
  | stack stack le => exact .one (.stack stack le)
  | enter frame room => exact .one (.enter frame room)
  | frames frames le => exact .one (.frames frames le)
  | globals globals => exact .one (.globals globals)
  | openUpvalues openUpvalues => exact .one (.openUpvalues openUpvalues)
  | sink sink => exact .one (.sink sink)
  | events events => exact .one (.events events)

namespace Turns

variable {op : Option Opcode}

theorem refl (m : Machine) : m.Turns op m := Relation.ReflTransGen.refl

theorem trans {m'' : Machine} (turns : m.Turns op m') (turns' : m'.Turns op m'') :
    m.Turns op m'' := Relation.ReflTransGen.trans turns turns'

theorem one (turn : m.Turn op m') : m.Turns op m' := Relation.ReflTransGen.single turn

/-- What each change preserves, any number of them preserves. -/
theorem induct {p : Machine → Prop} (turns : m.Turns op m')
    (preserves : ∀ m m', p m → Turn op m m' → p m') (holds : p m) : p m' := by
  induction turns with
  | refl => exact holds
  | tail _ turn ih => exact preserves _ _ ih turn

theorem changes (turns : m.Turns op m') : m.Changes m' :=
  turns.induct (fun _ _ changes turn => changes.trans turn.changes) (.refl m)

theorem closeOne (m : Machine) (stack : Array Value) (e : OpenUpvalue) :
    m.Turns op { m with heap := Machine.closeOne stack m.heap e } := by
  unfold Machine.closeOne
  split
  next u found => exact one (.setUpvalue (get?_of_upvalue? found) _)
  next => exact refl m

theorem closeFrom (m : Machine) (slot : Nat) : m.Turns op (m.closeFrom slot) := by
  have closeAll (entries : List OpenUpvalue) (m : Machine) (stack : Array Value) :
      m.Turns op { m with heap := entries.foldl (Machine.closeOne stack) m.heap } := by
    induction entries generalizing m with
    | nil => exact refl m
    | cons e rest ih => exact (closeOne m stack e).trans (ih _)
  rw [closeFrom_eq]
  exact (closeAll _ m m.stack).trans (one (.openUpvalues _))

theorem reset (m : Machine) : m.Turns op m.reset :=
  (closeFrom m 0).trans ((one (.stack #[] (Nat.zero_le _))).trans
    (one (.frames [] (Nat.zero_le _))))

theorem record (m : Machine) (event : ExecutionEvent) : m.Turns op (m.record event) := by
  unfold Machine.record
  split
  · exact one (.events _)
  · exact refl m

theorem conclude (m : Machine) (stop : Stop) : m.Turns op (m.conclude stop).2 := by
  unfold Machine.conclude
  split
  · exact refl m
  · exact refl m
  · exact refl m
  · split
    · exact refl m
    · exact (record m _).trans (reset _)

end Turns

end Machine

namespace Exec

open Machine

variable {α β : Type} {watch : Option Handle} {m : Machine} {v : Value} {h cls : Handle}
  {key : Key} {slot count index : Nat}

/-! ## Actions that change nothing -/

/-- Whether it stops or not, the action leaves the machine as it was. -/
def Reads (x : Exec α) : Prop :=
  ∀ watch m, match x watch m with
    | .ok _ m' => m' = m
    | .error _ m' => m' = m

/-- Whether it stops or not, the action gets from this machine to another by changes of the kind
that an instruction with the opcode makes. -/
def Leads (op : Option Opcode) (watch : Option Handle) (x : Exec α) (m : Machine) : Prop :=
  match x watch m with
  | .ok _ m' => m.Turns op m'
  | .error _ m' => m.Turns op m'

namespace Reads

theorem pure (a : α) : Reads (Pure.pure a) := fun _ _ => rfl

theorem throw (stop : Stop) : Reads (throwThe Stop stop : Exec α) := fun _ _ => rfl

theorem get : Reads (MonadState.get : Exec Machine) := fun _ _ => rfl

theorem bind {x : Exec α} {f : α → Exec β} (first : x.Reads) (next : ∀ a, (f a).Reads) :
    (x >>= f).Reads := by
  intro watch m
  have first := first watch m
  cases ran : x watch m with
  | ok a m' =>
    rw [ran] at first
    obtain rfl : m' = m := first
    rw [bind_eq ran]
    exact next a watch m'
  | error stop m' =>
    rw [ran] at first
    rw [bind_error ran]
    exact first

theorem ite {p : Prop} [Decidable p] {x y : Exec α} (yes : x.Reads) (no : y.Reads) :
    (if p then x else y).Reads := by
  split
  · exact yes
  · exact no

theorem fail (kind : ErrorKind) : Reads (Exec.fail kind : Exec α) := throw _

theorem orFail (kind : ErrorKind) (o : Option α) : (Exec.orFail kind o).Reads := by
  cases o
  · exact fail kind
  · exact pure _

theorem orMalformed (flaw : Malformed) (o : Option α) : (Exec.orMalformed flaw o).Reads := by
  cases o
  · exact fail _
  · exact pure _

theorem orBroken (fault : Fault) (o : Option α) : (Exec.orBroken fault o).Reads := by
  cases o
  · exact throw _
  · exact pure _

theorem peek (distance : Nat) : (Exec.peek distance).Reads :=
  bind get fun _ => ite (orMalformed _ _) (fail _)

theorem calleeSlot (count : Nat) : (Exec.calleeSlot count).Reads :=
  bind get fun _ => ite (pure _) (fail _)

theorem valuesAbove (slot : Nat) : (Exec.valuesAbove slot).Reads :=
  bind get fun _ => ite (pure _) (throw _)

theorem frame : Exec.frame.Reads := bind get fun _ => orBroken _ _

theorem function : Exec.function.Reads := bind frame fun _ => bind get fun _ => orBroken _ _

theorem constant (index : Nat) : (Exec.constant index).Reads :=
  bind function fun _ => orMalformed _ _

theorem name (index : Nat) : (Exec.name index).Reads :=
  bind (constant index) fun _ => bind get fun _ => orMalformed _ _

theorem textOf (key : Key) : (Exec.textOf key).Reads := bind get fun _ => pure _

theorem getLocal (slot : Nat) : (Exec.getLocal slot).Reads :=
  bind frame fun _ => bind get fun _ => orMalformed _ _

theorem upvalue (index : Nat) : (Exec.upvalue index).Reads :=
  bind frame fun _ => bind get fun _ => orMalformed _ _

theorem instance? (v : Value) : (Exec.instance? v).Reads := bind get fun _ => pure _

theorem class? (v : Value) : (Exec.class? v).Reads := bind get fun _ => pure _

theorem method? (cls : Handle) (key : Key) : (Exec.method? cls key).Reads :=
  bind get fun _ => pure _

theorem undefinedProperty (key : Key) : (Exec.undefinedProperty key : Exec α).Reads :=
  bind (textOf key) fun _ => fail _

theorem pauseAt (h : Handle) : (Exec.pauseAt h).Reads :=
  bind (fun _ _ => rfl) fun _ => ite (throw _) (pure _)

theorem getUpvalue (index : Nat) : (Exec.getUpvalue index).Reads := by
  refine bind (upvalue index) fun h => bind get fun m => bind (orBroken _ _) fun object => ?_
  split
  · exact orMalformed _ _
  · exact pure _
  · exact fail _

end Reads

/-! ## Actions that change the machine -/

namespace Leads

variable {x : Exec α} {f : α → Exec β}

theorem of_reads (reads : x.Reads) : Leads op watch x m := by
  have same := reads watch m
  unfold Leads
  cases ran : x watch m <;>
    · rw [ran] at same
      obtain rfl := same
      exact .refl _

theorem pure (a : α) : Leads op watch (Pure.pure a) m := .refl m

theorem bind (first : Leads op watch x m) (next : ∀ a m', Leads op watch (f a) m') :
    Leads op watch (x >>= f) m := by
  unfold Leads at first ⊢
  cases ran : x watch m with
  | ok a m' =>
    rw [ran] at first
    have next := next a m'
    unfold Leads at next
    rw [bind_eq ran]
    simp only at first ⊢
    split at next <;> exact first.trans next
  | error stop m' =>
    rw [ran] at first
    rw [bind_error ran]
    exact first

/-- What comes after an action that changes nothing starts in the same machine. -/
theorem read (reads : x.Reads) (next : ∀ a, Leads op watch (f a) m) :
    Leads op watch (x >>= f) m := by
  have same := reads watch m
  unfold Leads
  cases ran : x watch m with
  | ok a m' =>
    rw [ran] at same
    obtain rfl := same
    rw [bind_eq ran]
    exact next a
  | error stop m' =>
    rw [ran] at same
    obtain rfl := same
    rw [bind_error ran]
    exact .refl _

theorem get_bind {f : Machine → Exec β} (next : Leads op watch (f m) m) :
    Leads op watch (MonadState.get >>= f) m := next

theorem orBroken_bind {fault : Fault} {o : Option α}
    (next : ∀ a, o = some a → Leads op watch (f a) m) :
    Leads op watch (Exec.orBroken fault o >>= f) m := by
  cases o with
  | none => exact .refl m
  | some a => exact next a rfl

theorem modify {f : Machine → Machine} (turns : m.Turns op (f m)) :
    Leads op watch (modify f) m := turns

theorem set {m' : Machine} (turns : m.Turns op m') :
    Leads op watch (MonadStateOf.set m') m := turns

theorem modifyGet {f : Machine → α × Machine} (turns : m.Turns op (f m).2) :
    Leads op watch (modifyGet f) m := turns

theorem modifyHeap {f : Heap → Heap} (turns : m.Turns op { m with heap := f m.heap }) :
    Leads op watch (Exec.modifyHeap f) m := turns

theorem discard (first : Leads op watch x m) : Leads op watch (Functor.discard x) m :=
  bind (f := fun _ => Pure.pure ()) first fun _ _ => pure _

theorem ite {p : Prop} [Decidable p] {y : Exec α} (yes : p → Leads op watch x m)
    (no : ¬ p → Leads op watch y m) : Leads op watch (if p then x else y) m := by
  split
  next holds => exact yes holds
  next fails => exact no fails

theorem fail (kind : ErrorKind) : Leads op watch (Exec.fail kind : Exec α) m := .refl m

theorem malformed (flaw : Malformed) : Leads op watch (Exec.malformed flaw : Exec α) m := .refl m

/-- A test that stops with an error, and what comes after it. -/
theorem guard {p : Prop} [Decidable p] {kind : ErrorKind} {f : Unit → Exec Unit}
    (no : ¬ p → Leads op watch (f ⟨⟩) m) :
    Leads op watch (if p then Exec.fail kind >>= f else f ⟨⟩) m :=
  ite (fun _ => .refl m) no

/-! ## The primitive actions -/

theorem push (v : Value) : Leads op watch (Exec.push v) m :=
  get_bind (guard fun room => set (.one (.push v (Nat.lt_of_not_le room))))

theorem pop : Leads op watch Exec.pop m :=
  read (.peek 0) fun _ => bind (modify (.one (.stack _ (by simp)))) fun _ _ => pure _

theorem setSlot (slot : Nat) (v : Value) : Leads op watch (Exec.setSlot slot v) m :=
  get_bind (ite (fun _ => set (.one (.stack _ (by simp)))) fun _ => .refl m)

theorem truncate (slot : Nat) : Leads op watch (Exec.truncate slot) m :=
  modify (.one (.stack _ (by simp)))

theorem setIp (ip : Nat) : Leads op watch (Exec.setIp ip) m :=
  modify (.one (.frames _ (by simp)))

theorem setLocal (slot : Nat) (v : Value) : Leads op watch (Exec.setLocal slot v) m :=
  read .frame fun _ => read .get fun _ => ite (fun _ => setSlot _ _) fun _ => malformed _

theorem allocate {object : Object} (other : object.kind ≠ .string) (roomy : object.Roomy)
    (bare : object.Bare) (scripted : object.kind ≠ .native) :
    Leads op watch (Exec.allocate object) m :=
  bind (modifyGet (.one (.allocate object [] other roomy bare scripted))) fun _ _ =>
    read (.pauseAt _) fun _ => pure _

theorem intern (text : String) : Leads op watch (Exec.intern text) m :=
  bind (modifyGet (.one (.intern text []))) fun _ _ => read (.pauseAt _) fun _ => pure _

theorem fetchCaptures (count : Nat) : Leads op watch (Exec.fetchCaptures count) m :=
  read .function fun _ => read .frame fun _ => bind (setIp _) fun _ _ => of_reads (.orMalformed _ _)

theorem replaceTop (v : Value) :
    Leads op watch (do Functor.discard Exec.pop; Exec.push v) m :=
  bind (discard pop) fun _ _ => push v

theorem replaceTwo (v : Value) :
    Leads op watch (do Functor.discard Exec.pop; Functor.discard Exec.pop; Exec.push v) m :=
  bind (discard pop) fun _ _ => replaceTop v

/-! ## Calls -/

theorem call (h : Handle) (count : Nat) : Leads op watch (Exec.call h count) m :=
  read .get fun _ => read (.orFail _ _) fun _ => read .get fun _ => read (.orBroken _ _) fun _ =>
    guard fun _ => get_bind (guard fun room => read (.calleeSlot count) fun _ =>
      modify (.one (.enter _ (Nat.lt_of_not_le room))))

theorem construct (cls : Handle) (methods : Table) (slot count : Nat) :
    Leads op watch (Exec.construct cls methods slot count) m := by
  refine read .get fun _ => bind (allocate nofun nofun (Object.bare_inst _) nofun) fun _ _ =>
    bind (setSlot _ _) fun _ _ => ?_
  split
  · exact call _ _
  · exact malformed _
  · exact ite (fun _ => fail _) fun _ => pure _

theorem callValue (v : Value) (count : Nat) : Leads op watch (Exec.callValue v count) m := by
  refine read (.orFail _ _) fun _ => read (.calleeSlot _) fun _ => read .get fun _ => ?_
  split
  · exact bind (setSlot _ _) fun _ _ => call _ _
  · exact construct _ _ _ _
  · exact call _ _
  · exact read (.valuesAbove _) fun _ => read .get fun _ => bind (truncate _) fun _ _ => push _
  · exact fail _

theorem returnValue : Leads op watch Exec.returnValue m :=
  bind pop fun _ _ => read .frame fun _ => bind (modify (.one (.frames _ (by simp)))) fun _ _ =>
    bind (modify (.closeFrom _ _)) fun _ _ => bind (truncate _) fun _ _ => read .get fun _ =>
      ite (fun _ => .refl _) fun _ => push _

/-! ## Methods -/

theorem invokeFrom (cls : Handle) (key : Key) (count : Nat) :
    Leads op watch (Exec.invokeFrom cls key count) m := by
  refine read (.method? _ _) fun _ => ?_
  split
  · exact call _ _
  · exact of_reads (.undefinedProperty _)

theorem invoke (key : Key) (count : Nat) : Leads op watch (Exec.invoke key count) m := by
  refine read (.peek _) fun _ => read (.instance? _) fun _ => read (.orFail _ _) ?_
  rintro ⟨_, _, fields⟩
  simp only
  split
  · exact read (.calleeSlot _) fun _ => bind (setSlot _ _) fun _ _ => callValue _ _
  · exact invokeFrom _ _ _

theorem bindMethod (cls : Handle) (key : Key) : Leads op watch (Exec.bindMethod cls key) m := by
  refine read (.method? _ _) fun _ => ?_
  split
  · exact of_reads (.undefinedProperty _)
  · exact read (.peek _) fun _ => bind (allocate nofun nofun nofun nofun) fun _ _ => replaceTop _

theorem getProperty (key : Key) : Leads op watch (Exec.getProperty key) m := by
  refine read (.peek _) fun _ => read (.instance? _) fun _ => read (.orFail _ _) ?_
  rintro ⟨_, _, fields⟩
  simp only
  split
  · exact replaceTop _
  · exact bindMethod _ _

theorem setProperty (key : Key) : Leads (some .setProperty) watch (Exec.setProperty key) m :=
  read (.peek _) fun _ => read (.peek _) fun _ => read (.instance? _) fun _ =>
    read (.orFail _ _) fun ⟨_, _, _⟩ =>
      bind (modifyHeap (.one (.setFields _ _ rfl))) fun _ _ => replaceTwo _

theorem popClass : Leads op watch Exec.popClass m :=
  bind pop fun _ _ => read (.class? _) fun _ => read (.orFail _ _) fun ⟨_, _⟩ => pure _

theorem inherit : Leads (some .inherit) watch Exec.inherit m :=
  read (.peek _) fun _ => read (.peek _) fun _ => read (.class? _) fun _ =>
    read (.orFail _ _) fun ⟨_, _⟩ => read (.class? _) fun _ => read (.orMalformed _ _) fun ⟨_, _⟩ =>
      bind (modifyHeap (.one (.setMethods _ _ (.inl rfl)))) fun _ _ => discard pop

theorem defineMethod (key : Key) : Leads (some .method) watch (Exec.defineMethod key) m :=
  read (.peek _) fun _ => read (.peek _) fun _ => read (.class? _) fun _ =>
    read (.orMalformed _ _) fun ⟨_, _⟩ =>
      bind (modifyHeap (.one (.setMethods _ _ (.inr rfl)))) fun _ _ => discard pop

/-! ## Closures and captured variables -/

theorem captureSlot (slot : Nat) : Leads op watch (Exec.captureSlot slot) m := by
  refine read .get fun _ => ?_
  split
  · exact pure _
  · exact bind (allocate nofun nofun nofun nofun) fun _ _ =>
      bind (modify (.one (.openUpvalues _))) fun _ _ => pure _

theorem resolve (capture : Capture) : Leads op watch (Exec.resolve capture) m :=
  ite (fun _ => read .frame fun _ => captureSlot _) fun _ => of_reads (.upvalue _)

theorem captureAll (closure : Handle) (captures : List Capture) :
    Leads (some .closure) watch (Exec.captureAll closure captures) m := by
  induction captures generalizing m with
  | nil => exact pure _
  | cons capture rest ih =>
    exact bind (resolve capture) fun _ _ => read .get fun _ =>
      ite (fun _ => .refl _) fun _ => bind (modifyHeap (.one (.pushCaptured _ _ rfl))) fun _ _ => ih

theorem makeClosure (index : Nat) :
    Leads (some .closure) watch (Exec.makeClosure index) m := by
  refine read (.constant _) fun _ => read .get fun _ => read (.orMalformed _ _) ?_
  rintro ⟨_, _⟩
  exact bind (fetchCaptures _) fun _ _ =>
    bind (allocate nofun (Object.roomy_closure _ _) nofun nofun) fun _ _ => bind (push _) fun _ _ =>
      captureAll _ _

theorem setUpvalue (index : Nat) : Leads op watch (Exec.setUpvalue index) m := by
  refine read (.upvalue _) fun h => read (.peek _) fun _ => get_bind (orBroken_bind ?_)
  intro object found
  split
  · exact ite (fun _ => setSlot _ _) fun _ => malformed _
  -- What is overwritten is a captured variable.
  · exact modifyHeap (.one (.setUpvalue found _))
  · exact malformed _

theorem closeTop : Leads op watch Exec.closeTop m :=
  read .get fun _ => ite (fun _ => .refl _) fun _ => bind (modify (.closeFrom _ _)) fun _ _ =>
    discard pop

/-! ## Operators, globals and jumps -/

theorem binary (g : Number → Number → Value) : Leads op watch (Exec.binary g) m := by
  refine read (.peek _) fun _ => read (.peek _) fun _ => ?_
  split
  · exact replaceTwo _
  · exact fail _

theorem join (a b : Value) : Leads op watch (Exec.join a b) m := by
  refine get_bind (guard fun _ => ?_)
  split
  · exact bind (intern _) fun _ _ => replaceTwo _
  · exact fail _

theorem add : Leads op watch Exec.add m := by
  refine read (.peek _) fun _ => read (.peek _) fun _ => ?_
  split
  · exact replaceTwo _
  · exact join _ _

theorem negate : Leads op watch Exec.negate m := by
  refine read (.peek _) fun _ => ?_
  split
  · exact replaceTop _
  · exact fail _

theorem print : Leads op watch Exec.print m :=
  bind pop fun _ _ => get_bind (bind (set (.one (.sink _))) fun _ _ =>
    ite (fun _ => fail _) fun _ => pure _)

theorem storeGlobal (entitled : op = some .defineGlobal ∨ op = some .setGlobal) (key : Key)
    (v : Value) : Leads op watch (Exec.storeGlobal key v) m :=
  modifyGet (.one (.globals _ entitled))

theorem getGlobal (key : Key) : Leads op watch (Exec.getGlobal key) m := by
  refine read .get fun _ => ?_
  split
  · exact push _
  · exact of_reads (.bind (.textOf _) fun _ => .fail _)

theorem defineGlobal (key : Key) : Leads (some .defineGlobal) watch (Exec.defineGlobal key) m :=
  read (.peek _) fun _ => bind (discard (storeGlobal (.inl rfl) _ _)) fun _ _ => discard pop

theorem setGlobal (key : Key) : Leads (some .setGlobal) watch (Exec.setGlobal key) m :=
  read (.peek _) fun _ => bind (storeGlobal (.inr rfl) _ _) fun _ _ =>
    ite (fun _ => bind (modify (.one (.globals _ (.inr rfl)))) fun _ _ =>
      of_reads (.bind (.textOf _) fun _ => .fail _)) fun _ => pure _

theorem jump (distance : Nat) : Leads op watch (Exec.jump distance) m :=
  read .frame fun _ => setIp _

theorem jumpBack (distance : Nat) : Leads op watch (Exec.jumpBack distance) m :=
  read .frame fun _ => ite (fun _ => .refl _) fun _ => setIp _

/-! ## Steps -/

theorem perform (op : Opcode) (a b : Nat) : Leads (some op) watch (Exec.perform op a b) m := by
  cases op with
  | constant | longConstant => exact read (.constant _) fun _ => push _
  | pushNil | pushTrue | pushFalse => exact push _
  | pop => exact discard pop
  | getLocal => exact read (.getLocal _) fun _ => push _
  | setLocal => exact read (.peek _) fun _ => setLocal _ _
  | getGlobal => exact read (.name _) fun _ => getGlobal _
  | defineGlobal => exact read (.name _) fun _ => defineGlobal _
  | setGlobal => exact read (.name _) fun _ => setGlobal _
  | getUpvalue => exact read (.getUpvalue _) fun _ => push _
  | setUpvalue => exact setUpvalue _
  | getProperty => exact read (.name _) fun _ => getProperty _
  | setProperty => exact read (.name _) fun _ => setProperty _
  | getSuper => exact read (.name _) fun _ => bind popClass fun _ _ => bindMethod _ _
  | equal => exact bind pop fun _ _ => bind pop fun _ _ => push _
  | greater | less | subtract | multiply | divide => exact binary _
  | add => exact add
  | not => exact bind pop fun _ _ => push _
  | negate => exact negate
  | print => exact print
  | jump => exact jump _
  | jumpIfFalse => exact read (.peek _) fun _ => ite (fun _ => jump _) fun _ => pure _
  | loop => exact jumpBack _
  | call => exact read (.peek _) fun _ => callValue _ _
  | invoke => exact read (.name _) fun _ => invoke _ _
  | superInvoke => exact read (.name _) fun _ => bind popClass fun _ _ => invokeFrom _ _ _
  | closure => exact makeClosure _
  | closeUpvalue => exact closeTop
  | newClass =>
    exact read (.name _) fun _ =>
      bind (allocate nofun nofun (Object.bare_cls _) nofun) fun _ _ => push _
  | inherit => exact inherit
  | method => exact read (.name _) fun _ => defineMethod _
  | ret => exact returnValue

/-- Other changes may come before. -/
theorem after {y : Exec α} {m₁ : Machine} (turns : m.Turns op m₁) (eq : x watch m = y watch m₁)
    (leads : Leads op watch y m₁) : Leads op watch x m := by
  unfold Leads at leads ⊢
  rw [eq]
  split at leads
  · exact turns.trans leads
  · exact turns.trans leads

theorem withEvents_withIp (m : Machine) (ip : Nat) (events : List ExecutionEvent) :
    m.Turns op { m.withIp ip with events } :=
  (Turns.one (.frames _ (by simp))).trans (.one (.events events))

theorem step (watch : Option Handle) (m : Machine) :
    Leads (m.next?.map (·.opcode)) watch Exec.step m := by
  cases head : m.frames.head? with
  | none =>
    rw [Leads, step_of_frames_eq_nil (List.head?_eq_none_iff.mp head)]
    exact .refl m
  | some f =>
    cases found : m.heap.function? f.function with
    | none =>
      rw [Leads, step_of_lost watch head found]
      exact .refl m
    | some function =>
      cases next : m.next? with
      | some instruction =>
        obtain ⟨events, eq⟩ := step_eq_nextIp watch next
        exact after (withEvents_withIp m m.nextIp events) eq (perform _ _ _)
      | none =>
        obtain ⟨events, traced⟩ := step_traced watch head found
        have fetched := fetch_eq (m := { m with events }) watch head found
        simp only [Machine.next?, head, found, Option.bind_eq_bind, Option.bind_some] at next
        cases read : (Reader.instruction function.chunk.code f.ip).1 with
        | ok instruction =>
          rw [read] at next
          cases next
        | error e =>
          rw [read] at fetched
          refine after (.one (.events events)) traced ?_
          rw [Leads, bind_error fetched]
          exact .one (.frames _ (by simp))

theorem enter (watch : Option Handle) (function : Handle) (m : Machine) :
    Leads none watch (Machine.enter function) m :=
  read .get fun _ => bind (discard (of_reads (.orFail _ _))) fun _ _ => bind (push _) fun _ _ =>
    bind (allocate nofun (Object.roomy_closure _ _) nofun nofun) fun _ _ =>
      bind (discard pop) fun _ _ => bind (push _) fun _ _ => call _ _

/-- The machine that an action leaves is reached by changes. -/
theorem left {x : Exec Unit} (leads : Leads op watch x m) : m.Changes (m.left x watch) := by
  unfold Leads at leads
  unfold Machine.left
  split at leads
  next ran =>
    rw [ran]
    exact leads.changes
  next ran =>
    rw [ran]
    exact leads.changes

theorem of_ok {m' : Machine} {a : α} (leads : Leads op watch x m) (ran : x watch m = .ok a m') :
    m.Turns op m' := by
  rw [Leads, ran] at leads
  exact leads

theorem of_error {m' : Machine} {stop : Stop} (leads : Leads op watch x m)
    (ran : x watch m = .error stop m') : m.Turns op m' := by
  rw [Leads, ran] at leads
  exact leads

end Leads

end Exec

namespace Machine

variable {m m' : Machine}

theorem Hosts.changes (hosts : m.Hosts m') : m.Changes m' := by
  cases hosts with
  | defineNative native => exact .defineNative m native
  | intern text extra => exact .one (.intern text extra)
  | function f extra => exact .one (.allocate (.function f) extra nofun)
  | native native extra => exact .one (.allocate (.native native) extra nofun)
  | collect => exact .one .collect
  | tick uptime => exact .one (.uptime uptime)
  | drain sink => exact .one (.sink sink)

/-- What holds of a machine that has just been started, and is preserved by hosts and by each change
that instructions make, holds of all machines that come about. -/
theorem Occurs.induct {p : Machine → Prop} (occurs : m.Occurs)
    (started : ∀ config sink uptime, p (Machine.start config sink uptime))
    (hosted : ∀ m m', p m → m.Hosts m' → p m')
    (turned : ∀ op m m', p m → Turn op m m' → p m') : p m := by
  have along (op : Option Opcode) {m m' : Machine} (holds : p m) (turns : m.Turns op m') : p m' :=
    turns.induct (turned op) holds
  induction occurs with
  | start config sink uptime => exact started config sink uptime
  | host _ hosts ih => exact hosted _ _ ih hosts
  | enter _ h ran ih => exact along _ ih ((Exec.Leads.enter none h _).of_ok ran)
  | @refuse m m' stop _ h ran ih =>
    exact along none (along _ ih ((Exec.Leads.enter none h m).of_error ran)) (.conclude m' stop)
  | step _ ran ih => exact along _ ih ((Exec.Leads.step none _).of_ok ran)
  | @stop m m' stop _ ran ih =>
    exact along none (along _ ih ((Exec.Leads.step none m).of_error ran)) (.conclude m' stop)

/-- What holds of a machine that has just been made and is preserved by each change holds of all
machines that come about. -/
theorem Occurs.invariant {p : Machine → Prop} (occurs : m.Occurs)
    (made : ∀ config sink uptime, p (blank config sink uptime))
    (preserves : ∀ m m', p m → Change m m' → p m') : p m := by
  have along {m m' : Machine} (holds : p m) (changes : m.Changes m') : p m' :=
    changes.induct preserves holds
  exact occurs.induct
    (fun config sink uptime => along (made config sink uptime) (.defineNative _ _))
    (fun _ _ holds hosts => along holds hosts.changes)
    fun _ _ _ holds turn => along holds turn.changes

end Machine

end ScriptMachine
