/-
# What instructions change at all

Few instructions change more than the stack and what they have just allocated.
All others leave the globals, the frames and the open captured variables of
earlier frames as they were, and of the older objects they change none, save
that a collection may free what nothing refers to.

Where an instruction changes a global, a field, a method or a captured variable
that has been closed, it does so when nothing can go wrong any more. So a
machine that stops has been changed no more than by the others; the assignment
of a global that is not there takes back what it has done.

A call may push a frame, whose base is the slot of the callee.

## Main definitions

* `Heap.Spares` — the older objects are as they were
* `Machine.Rooted` — so are the frames, and the captured variables below the innermost one
* `Machine.Spared`, `Machine.Steady` — so are the objects and globals
* `Machine.Entered` — a call has pushed a frame, or it has not
* `Exec.Gentle` — an action that keeps a machine steady
* `Opcode.depth` — how far down an instruction reaches

## Main results

* `Gentle.perform` — most instructions keep a machine steady
* `Exec.perform_leaves` — the others do so where they stop
* `Exec.calls_leaves` — what calls do
-/

import ScriptMachine.Proofs.Machine.Tracking

namespace ScriptMachine

open Heap

/-! ## Heaps -/

/-- The object stays as it is unless a program changes it: it is neither a closure, which may still
capture variables, nor a captured variable that is open. -/
def Object.IsSettled : Object → Prop
  | .closure _ _ _ | .upvalue (.opened _) => False
  | _ => True

/-- The settled objects of this heap that are live in the other one are the same there. No object
has come back to life. -/
structure Heap.Spares (heap other : Heap) : Prop where
  grown : heap.cells.size ≤ other.cells.size
  old : ∀ h, h.index < heap.cells.size → other.contains h → heap.contains h
  same : ∀ h object, heap.get? h = some object → object.IsSettled → other.contains h →
    other.get? h = some object

namespace Heap

variable {heap other after : Heap} {h : Handle} {config : Config}

namespace Spares

theorem refl (heap : Heap) : heap.Spares heap :=
  ⟨Nat.le_refl _, fun _ _ live => live, fun _ _ found _ _ => found⟩

theorem trans (spares : heap.Spares other) (spares' : other.Spares after) : heap.Spares after where
  grown := spares.grown.trans spares'.grown
  old h lt live := spares.old h lt (spares'.old h (Nat.lt_of_lt_of_le lt spares.grown) live)
  same h object found settled live := by
    have lt := Nat.lt_of_lt_of_le (lt_size_of_contains (contains_of_get? found)) spares.grown
    exact spares'.same h object (spares.same h object found settled (spares'.old h lt live))
      settled live

/-- Where every object with an old handle was there before, the heap has been spared. -/
theorem of_retains (retains : heap.Retains other) : heap.Spares other where
  grown := retains.grown
  old h lt live := by
    obtain ⟨object, found⟩ := contains_iff_get?.mp live
    exact contains_of_get? (retains.same h object lt found)
  same h object found _ live := by
    obtain ⟨object', found'⟩ := contains_iff_get?.mp live
    have before := retains.same h object' (lt_size_of_contains (contains_of_get? found)) found'
    rw [found', ← before, found]

theorem allocate (clean : heap.Clean) (object : Object) (roots : List Handle) :
    heap.Spares (heap.allocate object roots).2 :=
  of_retains (allocated_allocate clean object roots).retains

theorem intern (evolves : heap.Evolves config) (text : String) (roots : List Handle) :
    heap.Spares (heap.intern text roots).2 :=
  of_retains (retains_intern evolves.canonical evolves.arises.clean text roots)

/-- Changing an object that is not settled. -/
theorem modify (h : Handle) {f : Object → Object}
    (loose : ∀ object, object.IsSettled → f object = object) : heap.Spares (heap.modify h f) where
  grown := (size_cells_modify heap h f).ge
  old k lt live := by
    obtain ⟨object, found⟩ := contains_iff_get?.mp live
    rw [get?_modify] at found
    split at found
    · obtain ⟨before, found, -⟩ := Option.map_eq_some_iff.mp found
      exact contains_of_get? found
    · exact contains_of_get? found
  same k object found settled _ := by
    rw [get?_modify, found, Option.map_some, loose object settled, ite_self]

theorem pushCaptured (heap : Heap) (h upvalue : Handle) :
    heap.Spares (heap.pushCaptured h upvalue) := by
  refine modify h fun object settled => ?_
  cases object <;> first | rfl | exact settled.elim

end Spares

end Heap

/-- A key that is new to a table can be inserted and erased again. -/
theorem Table.Sound.sameEntries_erase_insert {t : Table} {heap : Heap} {key : Key} {v : Value}
    (sound : t.Sound .any heap) (found : heap.key? key.handle = some key)
    (new : (t.insert key v).1) : ((t.insert key v).2.erase key).2.SameEntries t := by
  have agrees := sound.agrees found
  have inserted := sound.insert (v := v) found fun _ _ => trivial
  intro k w
  rw [inserted.lawful.mem_entries_erase_iff (inserted.agrees found),
    sound.lawful.mem_entries_insert_iff agrees]
  constructor
  · rintro ⟨other, ⟨rfl, -⟩ | ⟨-, mem⟩⟩
    · exact absurd rfl other
    · exact mem
  · intro mem
    have other : k.handle ≠ key.handle := fun same =>
      (sound.lawful.insert_fst_iff agrees).mp new w (agrees k w mem same ▸ mem)
    exact ⟨other, .inr ⟨other, mem⟩⟩

/-! ## Kinds of instructions -/

/-- The instruction changes no global and no older object, and neither calls nor returns nor closes
captured variables. -/
def Opcode.isGentle : Opcode → Bool
  | .defineGlobal | .setGlobal | .setUpvalue | .setProperty | .call | .invoke | .superInvoke
  | .closeUpvalue | .inherit | .method | .ret => false
  | _ => true

/-- The instruction neither calls nor returns nor closes captured variables. -/
def Opcode.stays : Opcode → Bool
  | .call | .invoke | .superInvoke | .closeUpvalue | .ret => false
  | _ => true

/-- The instruction may push a frame. -/
def Opcode.calls : Opcode → Bool
  | .call | .invoke | .superInvoke => true
  | _ => false

/-- How many of the top values of the stack an instruction takes or looks at: its operands, and for
a call the callee and the arguments. -/
def Opcode.depth (op : Opcode) (a b : Nat) : Nat :=
  match op with
  | .pop | .setLocal | .defineGlobal | .setGlobal | .setUpvalue | .getProperty | .not | .negate
  | .print | .jumpIfFalse | .closeUpvalue | .ret => 1
  | .setProperty | .getSuper | .equal | .greater | .less | .add | .subtract | .multiply | .divide
  | .inherit | .method => 2
  | .call => a + 1
  | .invoke => b + 1
  | .superInvoke => b + 2
  | _ => 0

/-! ## Machines -/

namespace Machine

variable {m₀ m : Machine} {slot : Nat}

/-- The base of the innermost frame. -/
def floor (m : Machine) : Nat := (m.frames.head?.map (·.base)).getD 0

/-- The frames are the same, save the instruction pointer of the innermost one, and so are the open
captured variables below the innermost one. -/
structure Rooted (m₀ m : Machine) : Prop where
  frames : ∃ ip, m.frames = (m₀.withIp ip).frames
  below : m.openUpvalues.filter (·.slot < m₀.floor) = m₀.openUpvalues.filter (·.slot < m₀.floor)

/-- Older objects and the entries of the globals are as they were. -/
structure Spared (m₀ m : Machine) : Prop where
  spares : m₀.heap.Spares m.heap
  globals : m.globals.SameEntries m₀.globals

/-- Neither the frames nor older objects nor globals have changed. -/
structure Steady (m₀ m : Machine) : Prop extends Spared m₀ m, Rooted m₀ m where
  evolves : m.heap.Evolves m₀.config

/-- A call has pushed a frame on this slot, or it has left its result there. -/
structure Entered (m₀ : Machine) (slot : Nat) (m : Machine) : Prop where
  frames : m.frames = m₀.frames ∨ ∃ f, m.frames = f :: m₀.frames ∧ f.base = slot
  openUpvalues : m.openUpvalues = m₀.openUpvalues
  inside : slot < m.stack.size

theorem floor_of_head? {f : Frame} (head : m.frames.head? = some f) : m.floor = f.base := by
  rw [floor, head]
  rfl

theorem floor_withIp (m : Machine) (ip : Nat) : (m.withIp ip).floor = m.floor := by
  unfold floor withIp
  cases m.frames <;> rfl

theorem floor_fetched (m : Machine) (events : List ExecutionEvent) :
    (m.fetched events).floor = m.floor := m.floor_withIp m.nextIp

theorem name?_fetched (m : Machine) (events : List ExecutionEvent) (index : Nat) :
    (m.fetched events).name? index = m.name? index := m.name?_withIp m.nextIp index

theorem frames_withIp_withIp (m : Machine) (ip ip' : Nat) :
    ((m.withIp ip).withIp ip').frames = (m.withIp ip').frames := by
  cases eq : m.frames <;> simp [withIp, eq]

theorem Rooted.refl (m : Machine) : m.Rooted m := by
  refine ⟨?_, rfl⟩
  cases eq : m.frames with
  | nil => exact ⟨0, by simp [withIp, eq]⟩
  | cons f rest => exact ⟨f.ip, by simp [withIp, eq]⟩

theorem Rooted.of_eq (frames : m.frames = m₀.frames) (list : m.openUpvalues = m₀.openUpvalues) :
    m₀.Rooted m := by
  obtain ⟨ip, same⟩ := (Rooted.refl m₀).frames
  exact ⟨⟨ip, frames.trans same⟩, by rw [list]⟩

theorem Rooted.floor_eq (rooted : m₀.Rooted m) : m.floor = m₀.floor := by
  obtain ⟨ip, eq⟩ := rooted.frames
  rw [← floor_withIp m₀ ip, floor, eq, floor]

theorem Spared.refl (m : Machine) : m.Spared m := ⟨.refl m.heap, fun _ _ => Iff.rfl⟩

theorem Steady.refl (regular : m.Regular) : m.Steady m :=
  { Spared.refl m, Rooted.refl m with evolves := regular.heap }

theorem Steady.withHeap {heap : Heap} (steady : m₀.Steady m) (evolves : heap.Evolves m₀.config)
    (spares : m.heap.Spares heap) : m₀.Steady { m with heap } :=
  { steady with evolves, spares := steady.spares.trans spares }

theorem Steady.withStack (steady : m₀.Steady m) (stack : Array Value) :
    m₀.Steady { m with stack } := { steady with }

theorem Steady.withIp (steady : m₀.Steady m) (ip : Nat) : m₀.Steady (m.withIp ip) := by
  refine { steady with frames := ⟨ip, ?_⟩ }
  obtain ⟨ip', eq⟩ := steady.frames
  rw [Machine.withIp, eq]
  exact m₀.frames_withIp_withIp ip' ip

theorem Steady.allocate {object : Object} (steady : m₀.Steady m) (other : object.kind ≠ .string) :
    m₀.Steady (m.allocate object []).2 :=
  steady.withHeap (steady.evolves.allocate object _ other)
    (.allocate steady.evolves.arises.clean object _)

theorem Steady.intern (steady : m₀.Steady m) (text : String) : m₀.Steady (m.intern text []).2 :=
  steady.withHeap (steady.evolves.intern text _) (.intern steady.evolves text _)

theorem filter_insertOpen {entry : OpenUpvalue} (above : slot ≤ entry.slot)
    (entries : List OpenUpvalue) :
    (insertOpen entry entries).filter (·.slot < slot) = entries.filter (·.slot < slot) := by
  have dropped : ¬ (decide (entry.slot < slot)) := by simpa using above
  induction entries with
  | nil => exact List.filter_cons_of_neg dropped
  | cons first rest ih =>
    rw [insertOpen]
    split
    · exact List.filter_cons_of_neg dropped
    · rw [List.filter_cons, List.filter_cons, ih]

/-- A slot of the innermost frame is captured. -/
theorem Steady.insertOpen {entry : OpenUpvalue} (steady : m₀.Steady m)
    (above : m₀.floor ≤ entry.slot) :
    m₀.Steady { m with openUpvalues := Machine.insertOpen entry m.openUpvalues } :=
  { steady with below := (filter_insertOpen above _).trans steady.below }

/-- Closing captured variables changes none but open ones. -/
theorem Intact.spares_closeFrom {c : Custody} (intact : m.Intact c) (slot : Nat) :
    m.heap.Spares (m.closeFrom slot).heap where
  grown := (size_cells_closeFrom intact.toSound slot).ge
  old h _ live := by
    have kind := (keeps_closeFrom intact.toSound slot h).kind
    obtain ⟨k, found⟩ := kind?_of_contains live
    exact contains_of_kind? (kind.symm.trans found)
  same h object found settled _ := by
    rw [intact.get?_closeFrom, found]
    split
    next eq =>
      rw [Option.some.inj eq] at settled
      exact settled.elim
    next => rfl

end Machine

namespace Exec

open Machine

variable {α β : Type} {m₀ m : Machine} {x : Exec α} {f : α → Exec β} {v : Value} {key : Key}
  {slot count index : Nat}

/-- The innermost frame is looked at, if there is one. -/
theorem Leaves.frame {post : Frame → Machine → Prop} {halt : Machine → Prop}
    (holds : ∀ f, m.frames.head? = some f → post f m) (halted : halt m) :
    Exec.frame.Leaves m post halt := by
  cases head : m.frames.head? with
  | none =>
    refine .get_bind ?_
    rw [head]
    exact halted
  | some f => exact .of_eq (frame_eq head) (holds f head)

/-! ## Actions that keep a machine steady -/

/-- A machine that is steady so far remains so, however the action ends. -/
def Gentle (m₀ : Machine) (x : Exec α) : Prop :=
  ∀ m, m₀.Steady m → x.Leaves m (fun _ m' => m₀.Steady m') m₀.Steady

namespace Gentle

theorem of_reads (reads : x.Reads) : Gentle m₀ x :=
  fun _ steady => .of_reads reads (fun _ => steady) steady

theorem bind (first : Gentle m₀ x) (next : ∀ a, Gentle m₀ (f a)) : Gentle m₀ (x >>= f) :=
  fun m steady => .bind ((first m steady).mono (fun a m' steady => next a m' steady)
    fun _ steady => steady)

theorem read (reads : x.Reads) (next : ∀ a, Gentle m₀ (f a)) : Gentle m₀ (x >>= f) :=
  bind (of_reads reads) next

theorem ite {p : Prop} [Decidable p] {y : Exec α} (yes : Gentle m₀ x) (no : Gentle m₀ y) :
    Gentle m₀ (if p then x else y) := by
  split
  · exact yes
  · exact no

theorem pure (a : α) : Gentle m₀ (Pure.pure a) := of_reads (.pure a)

theorem fail (kind : ErrorKind) : Gentle m₀ (Exec.fail kind : Exec α) := of_reads (.fail kind)

theorem discard (first : Gentle m₀ x) : Gentle m₀ (Functor.discard x) :=
  bind (f := fun _ => Pure.pure ()) first fun _ => pure _

/-- A test that stops with an error, and what comes after it. -/
theorem guard {p : Prop} [Decidable p] {kind : ErrorKind} {f : Unit → Exec Unit}
    (rest : Gentle m₀ (f ⟨⟩)) : Gentle m₀ (if p then Exec.fail kind >>= f else f ⟨⟩) :=
  ite (bind (fail _) fun _ => rest) rest

theorem push (v : Value) : Gentle m₀ (Exec.push v) :=
  fun _ steady => .push (steady.withStack _) steady

theorem pop : Gentle m₀ Exec.pop := fun _ steady => .pop (fun _ => steady.withStack _) steady

theorem setSlot (slot : Nat) (v : Value) : Gentle m₀ (Exec.setSlot slot v) :=
  fun _ steady => .get_bind (.ite (fun _ => steady.withStack _) fun _ => steady)

theorem setIp (ip : Nat) : Gentle m₀ (Exec.setIp ip) := fun _ steady => .setIp (steady.withIp ip)

theorem allocate {object : Object} (other : object.kind ≠ .string) :
    Gentle m₀ (Exec.allocate object) := fun _ steady => .allocate (steady.allocate other)

theorem intern (text : String) : Gentle m₀ (Exec.intern text) :=
  fun _ steady => .bind (steady.intern text)

/-- Where the innermost frame is looked at, its base is that of the beginning. -/
theorem bind_frame {f : Frame → Exec β}
    (next : ∀ frame, frame.base = m₀.floor → Gentle m₀ (f frame)) :
    Gentle m₀ (Exec.frame >>= f) := by
  refine fun m steady => .bind (.frame (fun frame head => next frame ?_ m steady) steady)
  exact (floor_of_head? head).symm.trans steady.floor_eq

theorem replaceTop (v : Value) : Gentle m₀ (do Functor.discard Exec.pop; Exec.push v) :=
  bind (discard pop) fun _ => push v

theorem replaceTwo (v : Value) :
    Gentle m₀ (do Functor.discard Exec.pop; Functor.discard Exec.pop; Exec.push v) :=
  bind (discard pop) fun _ => replaceTop v

theorem popClass : Gentle m₀ Exec.popClass :=
  bind pop fun _ => read (.class? _) fun _ => of_reads (.bind (.orFail _ _) fun ⟨_, _⟩ => .pure _)

theorem setLocal (slot : Nat) (v : Value) : Gentle m₀ (Exec.setLocal slot v) :=
  read .frame fun _ => read .get fun _ => ite (setSlot _ _) (fail _)

theorem bindMethod (cls : Handle) (key : Key) : Gentle m₀ (Exec.bindMethod cls key) := by
  refine read (.method? _ _) fun _ => ?_
  split
  · exact of_reads (.undefinedProperty _)
  · exact read (.peek _) fun _ => bind (allocate nofun) fun _ => replaceTop _

theorem getProperty (key : Key) : Gentle m₀ (Exec.getProperty key) := by
  refine read (.peek _) fun _ => read (.instance? _) fun _ => read (.orFail _ _) ?_
  rintro ⟨_, _, fields⟩
  simp only
  split
  · exact replaceTop _
  · exact bindMethod _ _

theorem binary (op : Number → Number → Value) : Gentle m₀ (Exec.binary op) := by
  refine read (.peek _) fun _ => read (.peek _) fun _ => ?_
  split
  · exact replaceTwo _
  · exact fail _

theorem join (a b : Value) : Gentle m₀ (Exec.join a b) := by
  refine read .get fun _ => guard ?_
  split
  · exact bind (intern _) fun _ => replaceTwo _
  · exact fail _

theorem add : Gentle m₀ Exec.add := by
  refine read (.peek _) fun _ => read (.peek _) fun _ => ?_
  split
  · exact replaceTwo _
  · exact join _ _

theorem negate : Gentle m₀ Exec.negate := by
  refine read (.peek _) fun _ => ?_
  split
  · exact replaceTop _
  · exact fail _

theorem print : Gentle m₀ Exec.print :=
  bind pop fun _ _ steady => .get_bind (.bind (.ite (fun _ => { steady with })
    fun _ => { steady with }))

theorem getGlobal (key : Key) : Gentle m₀ (Exec.getGlobal key) := by
  refine read .get fun _ => ?_
  split
  · exact push _
  · exact of_reads (.bind (.textOf _) fun _ => .fail _)

theorem jump (distance : Nat) : Gentle m₀ (Exec.jump distance) := read .frame fun _ => setIp _

theorem jumpBack (distance : Nat) : Gentle m₀ (Exec.jumpBack distance) :=
  read .frame fun _ => guard (setIp _)

theorem fetchCaptures (count : Nat) : Gentle m₀ (Exec.fetchCaptures count) :=
  read .function fun _ => read .frame fun _ => bind (setIp _) fun _ => of_reads (.orMalformed _ _)

theorem captureSlot (above : m₀.floor ≤ slot) : Gentle m₀ (Exec.captureSlot slot) := by
  refine read .get fun _ => ?_
  split
  · exact pure _
  · exact bind (allocate nofun) fun _ _ steady => .bind (steady.insertOpen above)

theorem resolve (capture : Capture) : Gentle m₀ (Exec.resolve capture) :=
  ite (bind_frame fun _ base => captureSlot (base ▸ Nat.le_add_right _ _)) (of_reads (.upvalue _))

theorem pushCaptured (closure upvalue : Handle) :
    Gentle m₀ (Exec.modifyHeap (·.pushCaptured closure upvalue)) := by
  refine fun m steady => steady.withHeap (steady.evolves.modify closure _ fun object _ => ?_)
    (.pushCaptured _ _ _)
  cases object <;> first | exact .inl rfl | exact .inr ⟨nofun, nofun⟩

theorem captureAll (closure : Handle) (captures : List Capture) :
    Gentle m₀ (Exec.captureAll closure captures) := by
  induction captures with
  | nil => exact pure _
  | cons capture rest ih =>
    exact bind (resolve capture) fun _ => read .get fun _ =>
      ite (bind (of_reads (.throw _)) fun _ => bind (pushCaptured _ _) fun _ => ih)
        (bind (pushCaptured _ _) fun _ => ih)

theorem makeClosure (index : Nat) : Gentle m₀ (Exec.makeClosure index) := by
  refine read (.constant _) fun _ => read .get fun _ => read (.orMalformed _ _) ?_
  rintro ⟨_, _⟩
  exact bind (fetchCaptures _) fun _ => bind (allocate nofun) fun _ =>
    bind (push _) fun _ => captureAll _ _

theorem perform {op : Opcode} (gentle : op.isGentle) (a b : Nat) :
    Gentle m₀ (Exec.perform op a b) := by
  cases op with
  | constant | longConstant => exact read (.constant _) fun _ => push _
  | pushNil | pushTrue | pushFalse => exact push _
  | pop => exact discard pop
  | getLocal => exact read (.getLocal _) fun _ => push _
  | setLocal => exact read (.peek _) fun _ => setLocal _ _
  | getGlobal => exact read (.name _) fun _ => getGlobal _
  | getUpvalue => exact read (.getUpvalue _) fun _ => push _
  | getProperty => exact read (.name _) fun _ => getProperty _
  | getSuper => exact read (.name _) fun _ => bind popClass fun _ => bindMethod _ _
  | equal => exact bind pop fun _ => bind pop fun _ => push _
  | greater | less | subtract | multiply | divide => exact binary _
  | add => exact add
  | not => exact bind pop fun _ => push _
  | negate => exact negate
  | print => exact print
  | jump => exact jump _
  | jumpIfFalse => exact read (.peek _) fun _ => ite (jump _) (pure _)
  | loop => exact jumpBack _
  | closure => exact makeClosure _
  | newClass => exact read (.name _) fun _ => bind (allocate nofun) fun _ => push _
  | defineGlobal | setGlobal | setUpvalue | setProperty | call | invoke | superInvoke
  | closeUpvalue | inherit | method | ret => cases gentle

end Gentle

/-! ## Actions that cannot fail -/

namespace Leaves

variable {halt : Machine → Prop}

theorem peek {post : Value → Machine → Prop}
    (holds : ∀ v, count < m.stack.size → post v m) (halted : halt m) :
    (Exec.peek count).Leaves m post halt :=
  .get_bind (.ite (fun inside => .orMalformed (fun v _ => holds v inside) fun _ => halted)
    fun _ => halted)

/-- A value that is there can be popped. -/
theorem popThere {post : Value → Machine → Prop} (filled : 0 < m.stack.size)
    (holds : ∀ v, post v { m with stack := m.stack.pop }) : Exec.pop.Leaves m post halt := by
  obtain ⟨v, top⟩ := exists_back? filled.ne'
  exact .of_eq (pop_eq top) (holds v)

theorem replaceTwoThere {post : Unit → Machine → Prop}
    (limit : m.stack.size ≤ m.config.stackLimit) (two : 1 < m.stack.size)
    (holds : post ⟨⟩ { m with stack := m.stack.pop.pop.push v }) :
    (do Functor.discard Exec.pop; Functor.discard Exec.pop; Exec.push v).Leaves m post halt := by
  refine .bind (.discard (.popThere (by omega) fun _ =>
    .bind (.discard (.popThere ?_ fun _ => ?_))))
  · change 0 < m.stack.pop.size
    rw [Array.size_pop]
    omega
  -- There is room for a value where there has been one.
  · refine .get_bind (.ite (fun full => ?_) fun _ => holds)
    change m.config.stackLimit ≤ m.stack.pop.pop.size at full
    rw [Array.size_pop, Array.size_pop] at full
    omega

theorem name {post : Key → Machine → Prop} (holds : ∀ key, m.name? index = some key → post key m)
    (halted : halt m) : (Exec.name index).Leaves m post halt := by
  refine .bind (.bind (.bind (.frame (fun f head => .get_bind ?_) halted)))
  cases found : m.heap.function? f.function with
  | none => exact halted
  | some function =>
    refine .orMalformed (fun v at_ => .get_bind (.orMalformed (fun key live => holds key ?_)
      fun _ => halted)) fun _ => halted
    simpa only [name?, head, found, at_, Option.bind_eq_bind, Option.bind_some] using live

/-- A test that stops with an error, and what comes after it. -/
theorem guard {post : Unit → Machine → Prop} {p : Prop} [Decidable p] {kind : ErrorKind}
    {f : Unit → Exec Unit} (halted : halt m) (rest : (f ⟨⟩).Leaves m post halt) :
    (if p then Exec.fail kind >>= f else f ⟨⟩).Leaves m post halt :=
  .ite (fun _ => .bind halted) fun _ => rest

end Leaves

/-! ## Instructions that change globals and objects -/

theorem setProperty_leaves (regular : m.Regular) (key : Key) :
    (Exec.setProperty key).Leaves m (fun _ m' => m.Rooted m') m.Steady := by
  have steady := Steady.refl regular
  refine .bind (.peek (fun _ two => .read (.peek _) (fun _ => .read (.instance? _) (fun _ =>
    .read (.orFail _ _) ?_ steady) steady) steady) steady)
  rintro ⟨h, _, fields⟩
  exact .bind (.replaceTwoThere regular.stack two (Rooted.of_eq rfl rfl))

theorem defineMethod_leaves (regular : m.Regular) (key : Key) :
    (Exec.defineMethod key).Leaves m (fun _ m' => m.Rooted m') m.Steady := by
  have steady := Steady.refl regular
  refine .bind (.peek (fun _ filled => .read (.peek _) (fun _ => .read (.class? _) (fun _ =>
    .read (.orMalformed _ _) ?_ steady) steady) steady) steady)
  rintro ⟨_, _⟩
  exact .bind (.discard (.popThere filled fun _ => Rooted.of_eq rfl rfl))

theorem inherit_leaves (regular : m.Regular) :
    Exec.inherit.Leaves m (fun _ m' => m.Rooted m') m.Steady := by
  have steady := Steady.refl regular
  refine .read (.peek _) (fun _ => .bind (.peek (fun _ filled => .read (.class? _) (fun _ =>
    .read (.orFail _ _) ?_ steady) steady) steady)) steady
  rintro ⟨_, _⟩
  refine .read (.class? _) (fun _ => .read (.orMalformed _ _) ?_ steady) steady
  rintro ⟨_, _⟩
  exact .bind (.discard (.popThere filled fun _ => Rooted.of_eq rfl rfl))

theorem setUpvalue_rooted (regular : m.Regular) (index : Nat) :
    (Exec.setUpvalue index).Leaves m (fun _ m' => m.Rooted m') m.Steady := by
  have steady := Steady.refl regular
  refine .read (.upvalue _) (fun _ => .read (.peek _) (fun _ => .get_bind
    (.read (.orBroken _ _) (fun object => ?_) steady)) steady) steady
  split
  · exact .ite (fun _ => .get_bind (.ite (fun _ => Rooted.of_eq rfl rfl) fun _ => steady))
      fun _ => steady
  · exact Rooted.of_eq rfl rfl
  · exact steady

theorem defineGlobal_leaves (regular : m.Regular) (key : Key) :
    (Exec.defineGlobal key).Leaves m (fun _ m' => m.Rooted m') m.Steady :=
  .bind (.peek (fun _ filled => .bind (.discard (.discard (.popThere filled fun _ =>
    Rooted.of_eq rfl rfl)))) (Steady.refl regular))

/-- The assignment of a global that is not there takes back the global that it has added. -/
theorem setGlobal_leaves (regular : m.Regular) (sound : m.globals.Sound .any m.heap)
    (found : m.heap.key? key.handle = some key) :
    (Exec.setGlobal key).Leaves m (fun _ m' => m.Rooted m') m.Steady := by
  have steady := Steady.refl regular
  refine .read (.peek _) (fun v => .bind ?_) steady
  refine Leaves.ite (fun new => ?_) fun _ => Rooted.of_eq rfl rfl
  have undone : m.Steady { m with globals := ((m.globals.insert key v).2.erase key).2 } :=
    { steady with globals := sound.sameEntries_erase_insert found new }
  have failed : (do Exec.fail (.undefinedVariable (← Exec.textOf key)) : Exec Unit).Leaves
      { m with globals := ((m.globals.insert key v).2.erase key).2 } (fun _ m' => m.Rooted m')
      m.Steady := .read (.textOf _) (fun _ => undone) undone
  exact .bind failed

/-- An instruction that neither calls nor returns nor closes captured variables stays in its frame.
If it stops, it has changed no older object and no global either. -/
theorem perform_leaves (intact : m.Intact .any) (regular : m.Regular) {op : Opcode}
    (stays : op.stays) (a b : Nat) :
    (Exec.perform op a b).Leaves m (fun _ m' => m.Rooted m') m.Steady := by
  have steady := Steady.refl regular
  have gentle {op : Opcode} (gentle : op.isGentle) :
      (Exec.perform op a b).Leaves m (fun _ m' => m.Rooted m') m.Steady :=
    (Gentle.perform gentle a b m steady).mono (fun _ _ steady => steady.toRooted)
      fun _ steady => steady
  cases op with
  | defineGlobal => exact .read (.name _) (fun _ => defineGlobal_leaves regular _) steady
  | setGlobal =>
    refine .bind (.name (fun _ named => ?_) steady)
    exact setGlobal_leaves regular intact.globals (key?_of_name? named)
  | setUpvalue => exact setUpvalue_rooted regular _
  | setProperty => exact .read (.name _) (fun _ => setProperty_leaves regular _) steady
  | inherit => exact inherit_leaves regular
  | method => exact .read (.name _) (fun _ => defineMethod_leaves regular _) steady
  | call | invoke | superInvoke | closeUpvalue | ret => cases stays
  | _ => exact gentle rfl

/-! ## Calls -/

/-- The machine is about to call what lies in this slot, and it has changed no more than a call may
until then. -/
structure Poised (m₀ : Machine) (slot count : Nat) (m : Machine) : Prop where
  steady : m₀.Steady m
  frames : m.frames = m₀.frames
  openUpvalues : m.openUpvalues = m₀.openUpvalues
  at_ : m.stack.size - 1 - count = slot

theorem call_poised (poised : Poised m₀ slot count m) (h : Handle) :
    (Exec.call h count).Leaves m (fun _ m' => m₀.Entered slot m') m₀.Steady := by
  have steady := poised.steady
  refine .get_bind (.read (.orFail _ _) (fun _ => .get_bind (.read (.orBroken _ _) (fun _ =>
    .guard steady (.get_bind (.guard steady ?_))) steady)) steady)
  refine .bind (.calleeSlot (fun inside => ?_) steady)
  have at_ := poised.at_
  refine ⟨.inr ⟨_, congrArg _ poised.frames, at_⟩, poised.openUpvalues, ?_⟩
  change slot < m.stack.size
  omega

theorem setSlot_poised (poised : Poised m₀ slot count m) (inside : slot < m.stack.size)
    (v : Value) : (Exec.setSlot slot v).Leaves m
      (fun _ m' => Poised m₀ slot count m' ∧ slot < m'.stack.size) m₀.Steady := by
  have size : (m.stack.setIfInBounds slot v).size = m.stack.size := Array.size_setIfInBounds ..
  exact .get_bind (.ite (fun _ => ⟨⟨poised.steady.withStack _, poised.frames,
    poised.openUpvalues, (congrArg (· - 1 - count) size).trans poised.at_⟩, size ▸ inside⟩)
    fun _ => poised.steady)

theorem construct_poised (poised : Poised m₀ slot count m) (inside : slot < m.stack.size)
    (cls : Handle) (methods : Table) :
    (Exec.construct cls methods slot count).Leaves m (fun _ m' => m₀.Entered slot m')
      m₀.Steady := by
  refine .get_bind (.bind (.allocate (.bind ?_)))
  have made : Poised m₀ slot count (m.allocate (.inst cls .empty) []).2 :=
    ⟨poised.steady.allocate nofun, poised.frames, poised.openUpvalues, poised.at_⟩
  refine (setSlot_poised made inside _).mono (fun _ m' ⟨poised, inside⟩ => ?_)
    fun _ steady => steady
  split
  · exact call_poised poised _
  · exact poised.steady
  · exact .ite (fun _ => poised.steady) fun _ => ⟨.inl poised.frames, poised.openUpvalues, inside⟩

/-- The result of a host function takes the place of the callee. -/
theorem replaceFrom_poised (poised : Poised m₀ slot count m) (inside : slot < m.stack.size)
    (v : Value) : (do Exec.truncate slot; Exec.push v).Leaves m (fun _ m' => m₀.Entered slot m')
      m₀.Steady := by
  refine .bind (.push ⟨.inl poised.frames, poised.openUpvalues, ?_⟩ (poised.steady.withStack _))
  change slot < ((m.stack.take slot).push v).size
  rw [Array.size_push, Array.take_eq_extract, Array.size_extract]
  omega

theorem callValue_poised (poised : Poised m₀ slot count m) (v : Value) :
    (Exec.callValue v count).Leaves m (fun _ m' => m₀.Entered slot m') m₀.Steady := by
  have steady := poised.steady
  refine .read (.orFail _ _) (fun h => .bind (.calleeSlot (fun above => .get_bind ?_) steady))
    steady
  have inside : slot < m.stack.size := by
    have := poised.at_
    omega
  rw [poised.at_]
  split
  · exact .bind ((setSlot_poised poised inside _).mono (fun _ _ ⟨poised, _⟩ =>
      call_poised poised _) fun _ steady => steady)
  · exact construct_poised poised inside _ _
  · exact call_poised poised _
  · exact .read (.valuesAbove _) (fun _ => .get_bind (replaceFrom_poised poised inside _)) steady
  · exact steady

theorem invokeFrom_poised (poised : Poised m₀ slot count m) (cls : Handle) (key : Key) :
    (Exec.invokeFrom cls key count).Leaves m (fun _ m' => m₀.Entered slot m') m₀.Steady := by
  refine .read (.method? _ _) (fun _ => ?_) poised.steady
  split
  · exact call_poised poised _
  · exact .read (.textOf _) (fun _ => poised.steady) poised.steady

theorem invoke_poised (poised : Poised m₀ slot count m) (key : Key) :
    (Exec.invoke key count).Leaves m (fun _ m' => m₀.Entered slot m') m₀.Steady := by
  have steady := poised.steady
  refine .read (.peek _) (fun _ => .read (.instance? _) (fun _ => .read (.orFail _ _) ?_ steady)
    steady) steady
  rintro ⟨_, _, fields⟩
  simp only
  split
  · refine .bind (.calleeSlot (fun above => ?_) steady)
    have inside : slot < m.stack.size := by
      have := poised.at_
      omega
    rw [poised.at_]
    exact .bind ((setSlot_poised poised inside _).mono (fun _ _ ⟨poised, _⟩ =>
      callValue_poised poised _) fun _ steady => steady)
  · exact invokeFrom_poised poised _ _

/-- Whatever is called, a frame is pushed on the slot of the callee, or the result is left there. -/
theorem calls_leaves (regular : m.Regular) {op : Opcode} (calls : op.calls) (a b : Nat) :
    (Exec.perform op a b).Leaves m (fun _ m' => m.Entered (m.stack.size - op.depth a b) m')
      m.Steady := by
  have steady := Steady.refl regular
  cases op with
  | call =>
    have poised : Poised m (m.stack.size - (a + 1)) a m := ⟨steady, rfl, rfl, by omega⟩
    exact .read (.peek _) (fun _ => callValue_poised poised _) steady
  | invoke =>
    have poised : Poised m (m.stack.size - (b + 1)) b m := ⟨steady, rfl, rfl, by omega⟩
    exact .read (.name _) (fun _ => invoke_poised poised _) steady
  | superInvoke =>
    -- The class is off the stack by then.
    have poised : Poised m (m.stack.size - (b + 2)) b { m with stack := m.stack.pop } := by
      refine ⟨steady.withStack _, rfl, rfl, ?_⟩
      change m.stack.pop.size - 1 - b = _
      rw [Array.size_pop]
      omega
    refine .read (.name _) (fun _ => .bind (.bind (.pop (fun _ => ?_) steady))) steady
    exact .read (.class? _) (fun _ => .read (.orFail _ _) (fun ⟨_, _⟩ =>
      invokeFrom_poised poised _ _) poised.steady) poised.steady
  | _ => cases calls

/-! ## Returning -/

/-- There is room for the result of a return, as it has just been popped. -/
theorem returnValue_eq_ok {f : Frame} (regular : m.Regular) (head : m.frames.head? = some f)
    (top : m.stack.back? = some v) :
    Exec.returnValue none m = if m.frames.tail.isEmpty then .error (.finished v) (m.unwind f.base)
      else .ok ⟨⟩ { m.unwind f.base with stack := (m.stack.pop.take f.base).push v } := by
  have room : ¬ (m.unwind f.base).config.stackLimit ≤ (m.unwind f.base).stack.size := by
    have limit := regular.stack
    have filled := (Array.getElem?_eq_some_iff.mp top).1
    have config : (m.unwind f.base).config = m.config := by rw [unwind, closeFrom_eq]
    rw [config, stack_unwind, Array.take_eq_extract, Array.size_extract, Array.size_pop]
    omega
  rw [returnValue_eq head top, frames_unwind, push_eq, if_neg room, stack_unwind]

/-- A return fails if there is no result, and otherwise it leaves its frame. -/
theorem returnValue_cases {f : Frame} (regular : m.Regular) (head : m.frames.head? = some f) :
    returnValue none m = .error (.failed (.malformed .stackUnderflow)) m ∨
      ∃ m', m'.frames = m.frames.tail ∧
        (returnValue none m = .ok ⟨⟩ m' ∨ ∃ v, returnValue none m = .error (.finished v) m') := by
  cases top : m.stack.back? with
  | none => exact .inl (returnValue_of_empty (by simpa [Array.back?] using top))
  | some v =>
    have returned := returnValue_eq_ok regular head top
    have frames := frames_unwind m f.base
    split at returned
    · exact .inr ⟨_, frames, .inr ⟨v, returned⟩⟩
    · exact .inr ⟨{ m.unwind f.base with stack := (m.stack.pop.take f.base).push v }, frames,
        .inl returned⟩

end Exec

/-! ## Steps -/

namespace Machine

variable {m : Machine}

/-- A return leaves the captured variables below its frame open. -/
theorem Intact.openUpvalues_unwind (intact : m.Intact .any) (base : Nat) :
    (m.unwind base).openUpvalues = m.openUpvalues.filter (·.slot < base) :=
  intact.popResult.openUpvalues_closeFrom base

theorem Intact.fetched {c : Custody} (intact : m.Intact c) (events : List ExecutionEvent) :
    (m.fetched events).Intact c := (intact.withIp m.nextIp).withEvents events

theorem Regular.withIp (regular : m.Regular) (ip : Nat) : (m.withIp ip).Regular := by
  refine ⟨regular.stack, ?_, regular.heap⟩
  change (m.frames.modifyHead _).length ≤ _
  rw [List.length_modifyHead]
  exact regular.frames

theorem Regular.fetched (regular : m.Regular) (events : List ExecutionEvent) :
    (m.fetched events).Regular := { regular.withIp m.nextIp with }

end Machine

end ScriptMachine
