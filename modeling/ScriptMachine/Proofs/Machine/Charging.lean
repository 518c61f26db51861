/-
# Every object is charged for its present size

Objects change their sizes after they have been charged: classes and instances
get larger tables. Closures do not; they are filled one variable after the
other, with collections in between, but all places were reserved when they were
made. An object is charged anew as soon as its table is changed, so between two
instructions every object is charged for the size that it has, whether the last
instruction went through or failed, and the bytes of the heap are the sum of
these sizes.

## Main definitions

* `Heap.Weighed` — every object is charged for its size, and closures have room
* `Heap.Reserves` — how many variables a closure may still capture

## Main results

* `Weighed.turn` — each change by an instruction keeps objects charged for their sizes
* `captureAll_weighed` — closures are filled within the places reserved for them
* `Occurs.charged_by_size` — every object is charged for its present size at any time
-/

import ScriptMachine.Proofs.Bytecode.Reading
import ScriptMachine.Proofs.Machine.Steady

namespace ScriptMachine

open Heap

namespace Heap

variable {heap after : Heap} {config : Config} {h k : Handle} {object : Object} {cell : Cell}
  {roots : List Handle}

/-- Every live object is charged for its size, and has room for its captured variables. -/
def Weighed (heap : Heap) : Prop :=
  ∀ h cell, heap.cell? h = some cell → cell.charge = cell.object.size ∧ cell.object.Roomy

/-- If the object is a closure, it may capture that many variables more. -/
def Reserves (heap : Heap) (h : Handle) (count : Nat) : Prop :=
  ∀ f upvalues reserved, heap.get? h = some (.closure f upvalues reserved) →
    upvalues.size + count ≤ reserved

/-! ## Operations of the heap -/

namespace Weighed

theorem collect (weighed : heap.Weighed) (clean : heap.Clean) (roots : List Handle) :
    (heap.collect roots).Weighed := fun h cell found =>
  weighed h cell ((cell?_collect_iff clean).mp found).1

/-- A new object is charged for its size. -/
theorem allocated (weighed : heap.Weighed) (allocated : heap.Allocated object roots h after)
    (roomy : object.Roomy) : after.Weighed := by
  intro k cell found
  by_cases new : k = h
  · rw [new, allocated.new] at found
    obtain rfl := Option.some.inj found
    exact ⟨rfl, roomy⟩
  · rw [allocated.old k new (contains_iff.mpr ⟨cell, found⟩)] at found
    exact weighed k cell found

theorem allocate (weighed : heap.Weighed) (clean : heap.Clean) (roomy : object.Roomy)
    (roots : List Handle) : (heap.allocate object roots).2.Weighed :=
  weighed.allocated (allocated_allocate clean object roots) roomy

theorem intern (weighed : heap.Weighed) (clean : heap.Clean) (text : String)
    (roots : List Handle) : (heap.intern text roots).2.Weighed := by
  unfold Heap.intern
  split
  · exact weighed
  · exact weighed.allocate clean (by rintro _ _ _ ⟨⟩) roots

/-- An object may be replaced by one of the same size. -/
theorem modify (weighed : heap.Weighed) {f : Object → Object}
    (fits : ∀ object, heap.get? h = some object → object.Roomy →
      (f object).size = object.size ∧ (f object).Roomy) : (heap.modify h f).Weighed := by
  intro k cell found
  rw [Heap.modify, cell?_modifyCell] at found
  by_cases here : k = h
  · rw [if_pos here, here] at found
    obtain ⟨before, live, rfl⟩ := Option.map_eq_some_iff.mp found
    obtain ⟨charge, roomy⟩ := weighed h before live
    obtain ⟨size, roomy⟩ := fits before.object (by rw [Heap.get?, live]; rfl) roomy
    exact ⟨charge.trans size.symm, roomy⟩
  · rw [if_neg here] at found
    exact weighed k cell found

/-- An object may be replaced by one of another size if it is charged anew. -/
theorem remade (weighed : heap.Weighed) (h : Handle) {f : Object → Object}
    (roomy : ∀ object, object.Roomy → (f object).Roomy) :
    ((heap.modify h f).recharge h).Weighed := by
  intro k cell found
  have modified (k : Handle) := cell?_modifyCell heap h k fun cell =>
    { cell with object := f cell.object }
  unfold Heap.recharge at found
  split at found
  next gone =>
    -- There is no such object.
    have other : k ≠ h := by
      rintro rfl
      rw [gone] at found
      cases found
    rw [Heap.modify, modified, if_neg other] at found
    exact weighed k cell found
  next changed live =>
    rw [cell?_modifyCell] at found
    by_cases here : k = h
    · rw [if_pos here] at found
      obtain ⟨before, same, rfl⟩ := Option.map_eq_some_iff.mp found
      have same : (heap.modify h f).cell? h = some before := here ▸ same
      obtain rfl : changed = before := Option.some.inj (live.symm.trans same)
      rw [Heap.modify, modified, if_pos rfl] at live
      obtain ⟨cell, old, rfl⟩ := Option.map_eq_some_iff.mp live
      exact ⟨rfl, roomy _ (weighed h cell old).2⟩
    · rw [if_neg here] at found
      change (heap.modify h f).cell? k = some cell at found
      rw [Heap.modify, modified, if_neg here] at found
      exact weighed k cell found

end Weighed

end Heap

namespace Machine

variable {m m' : Machine} {op : Option Opcode} {h : Handle}

/-! ## Changes by instructions -/

/-- Every change by an instruction that fills no closure keeps objects charged for their sizes. -/
theorem Turn.weighed (turn : m.Turn op m') (other : op ≠ some .closure) (clean : m.heap.Clean)
    (weighed : m.heap.Weighed) : m'.heap.Weighed := by
  cases turn with
  | allocate object extra _ roomy _ => exact weighed.allocate clean roomy _
  | intern text extra => exact weighed.intern clean text _
  | setUpvalue found u' =>
    refine weighed.modify fun object live _ => ?_
    obtain rfl := Option.some.inj (found.symm.trans live)
    exact ⟨rfl, nofun⟩
  | pushCaptured h upvalue entitled => exact absurd entitled other
  | setFields h fields =>
    refine weighed.remade h fun object roomy => ?_
    cases object <;> first | exact roomy | exact nofun
  | setMethods h methods =>
    refine weighed.remade h fun object roomy => ?_
    cases object <;> first | exact roomy | exact nofun
  | push | stack | enter | frames | globals | openUpvalues | sink | events => exact weighed

/-- What is no instruction leaves closures as they were. -/
theorem Turn.get?_closure {f : Handle} {upvalues : Array Handle} {reserved : Nat}
    (turn : m.Turn none m') (regular : m.Regular) (old : h.index < m.heap.cells.size)
    (found : m'.heap.get? h = some (.closure f upvalues reserved)) :
    m.heap.get? h = some (.closure f upvalues reserved) := by
  have clean := regular.heap.arises.clean
  cases turn with
  | allocate object extra => exact (allocated_allocate clean _ _).retains.same h _ old found
  | intern text extra => exact (retains_intern regular.heap.canonical clean _ _).same h _ old found
  | setUpvalue live u' =>
    have found : (m.heap.modify _ _).get? h = _ := found
    rw [get?_modify] at found
    split at found
    · obtain ⟨_, -, same⟩ := Option.map_eq_some_iff.mp found
      cases same
    · exact found
  | pushCaptured _ _ entitled => cases entitled
  | setFields _ _ entitled => cases entitled
  | setMethods _ _ entitled => exact entitled.elim nofun nofun
  | push | stack | enter | frames | globals | openUpvalues | sink | events => exact found

/-- What holds while a closure is filled: it may capture that many variables more. -/
structure Fills (m : Machine) (closure : Handle) (count : Nat) : Prop where
  regular : m.Regular
  weighed : m.heap.Weighed
  old : closure.index < m.heap.cells.size
  reserves : m.heap.Reserves closure count

theorem Fills.turn {count : Nat} (fills : m.Fills h count) (turn : m.Turn none m') :
    m'.Fills h count where
  regular := turn.changes.regular fills.regular
  weighed := turn.weighed nofun fills.regular.heap.arises.clean fills.weighed
  old := fills.old.trans_le (turn.changes.grown fills.regular)
  reserves f upvalues reserved found :=
    fills.reserves f upvalues reserved (turn.get?_closure fills.regular fills.old found)

/-- A captured variable takes one of the reserved places. -/
theorem Fills.pushCaptured {count : Nat} (fills : m.Fills h (count + 1)) (upvalue : Handle) :
    Fills { m with heap := m.heap.pushCaptured h upvalue } h count := by
  have turn : m.Turn (some .closure) { m with heap := m.heap.pushCaptured h upvalue } :=
    .pushCaptured h upvalue rfl
  have grown := turn.changes.grown fills.regular
  refine ⟨turn.changes.regular fills.regular, ?_, fills.old.trans_le grown, ?_⟩
  · refine fills.weighed.modify fun object live _ => ?_
    cases object with
    | closure f upvalues reserved =>
      refine ⟨rfl, ?_⟩
      rintro _ _ _ ⟨⟩
      have := fills.reserves f upvalues reserved live
      simp only [Array.size_push]
      omega
    | string | function | upvalue | cls | inst | bound | native => exact ⟨rfl, by rintro _ _ _ ⟨⟩⟩
  · intro f upvalues reserved found
    have found : (m.heap.modify h _).get? h = _ := found
    rw [get?_modify, if_pos rfl] at found
    obtain ⟨before, live, same⟩ := Option.map_eq_some_iff.mp found
    cases before with
    | closure f' upvalues' reserved' =>
      obtain ⟨-, rfl, rfl⟩ := Object.closure.inj same
      have := fills.reserves f' upvalues' reserved' live
      simp only [Array.size_push]
      omega
    | string | function | upvalue | cls | inst | bound | native => cases same

end Machine

namespace Exec

open Machine

variable {m : Machine} {h : Handle} {α : Type}

/-- What each change preserves holds where an action leads. -/
theorem Leads.leaves {p : Machine → Prop} {x : Exec α} (leads : Leads none none x m)
    (preserves : ∀ m m', p m → Turn none m m' → p m') (holds : p m) :
    x.Leaves m (fun _ m' => p m') p := by
  unfold Leaves
  cases ran : x none m with
  | ok a m' => exact (leads.of_ok ran).induct preserves holds
  | error stop m' => exact (leads.of_error ran).induct preserves holds

theorem captureAll_weighed {captures : List Capture} (fills : m.Fills h captures.length) :
    (captureAll h captures).Leaves m (fun _ m' => m'.heap.Weighed) fun m' => m'.heap.Weighed := by
  induction captures generalizing m with
  | nil => exact fills.weighed
  | cons capture rest ih =>
    have resolved := (Leads.resolve capture).leaves (p := fun m' => m'.Fills h (rest.length + 1))
      (fun _ _ fills turn => fills.turn turn) fills
    refine .bind (resolved.mono (fun upvalue m' fills => ?_) fun _ fills => fills.weighed)
    exact .get_bind (.ite (fun _ => fills.weighed) fun _ => .bind (ih (fills.pushCaptured upvalue)))

theorem fetchCaptures_leaves (count : Nat) : (fetchCaptures count).Leaves m
    (fun captures m' => captures.length = count ∧ ∃ ip, m' = m.withIp ip)
    fun m' => m'.heap = m.heap := by
  refine .read .function (fun _ => .read .frame (fun _ => .bind (.setIp (.orMalformed ?_ ?_))) rfl)
    rfl
  · exact fun captures read => ⟨Reader.length_captures read, _, rfl⟩
  · exact fun _ => rfl

/-- A closure has room for as many variables as will be captured. -/
theorem fills_allocate (regular : m.Regular) (weighed : m.heap.Weighed) (g : Handle) (count : Nat) :
    (m.allocate (.closure g #[] count) []).2.Fills (m.allocate (.closure g #[] count) []).1
      count := by
  have turn : m.Turn none (m.allocate (.closure g #[] count) []).2 :=
    .allocate _ _ nofun (Object.roomy_closure g count) nofun nofun
  have clean := regular.heap.arises.clean
  have allocated := allocated_allocate clean (.closure g #[] count) (m.roots ++ [])
  refine ⟨turn.changes.regular regular, turn.weighed nofun clean weighed, ?_, ?_⟩
  · exact lt_size_of_contains (contains_of_get? allocated.get?)
  · intro f upvalues reserved found
    obtain ⟨-, rfl, rfl⟩ := Object.closure.inj (Option.some.inj (allocated.get?.symm.trans found))
    simp

theorem makeClosure_weighed (regular : m.Regular) (weighed : m.heap.Weighed) (index : Nat) :
    (makeClosure index).Leaves m (fun _ m' => m'.heap.Weighed) fun m' => m'.heap.Weighed := by
  refine .read (.constant _) (fun _ => .get_bind (.read (.orMalformed _ _) ?_ weighed)) weighed
  rintro ⟨g, callee⟩
  refine .bind ((fetchCaptures_leaves _).mono (fun captures m' => ?_) fun _ same => same ▸ weighed)
  rintro ⟨length, ip, rfl⟩
  have moved : m.Turn none (m.withIp ip) := .frames _ (by simp)
  let made := (m.withIp ip).allocate (.closure g #[] callee.captureCount) []
  have fills : made.2.Fills made.1 captures.length :=
    length ▸ fills_allocate (moved.changes.regular regular) weighed g callee.captureCount
  have pushed := (Leads.push (.object made.1)).leaves
    (p := fun m' => m'.Fills made.1 captures.length) (fun _ _ fills turn => fills.turn turn) fills
  exact .bind (.allocate (.bind (pushed.mono (fun _ _ fills => captureAll_weighed fills)
    fun _ fills => fills.weighed)))

end Exec

namespace Machine

variable {m m' : Machine}

/-! ## All machines -/

theorem Turns.weighed {op : Option Opcode} (turns : m.Turns op m') (other : op ≠ some .closure)
    (regular : m.Regular) (weighed : m.heap.Weighed) : m'.heap.Weighed :=
  (turns.induct (p := fun m => m.Regular ∧ m.heap.Weighed) (fun _ _ ⟨regular, weighed⟩ turn =>
    ⟨turn.changes.regular regular, turn.weighed other regular.heap.arises.clean weighed⟩)
    ⟨regular, weighed⟩).2

/-- A step keeps objects charged for their sizes, whether it goes on or stops. -/
theorem step_weighed (regular : m.Regular) (weighed : m.heap.Weighed) :
    Exec.step.Leaves m (fun _ m' => m'.heap.Weighed) fun m' => m'.heap.Weighed := by
  have leads := Exec.Leads.step none m
  by_cases closure : m.next?.map (·.opcode) = some .closure
  · obtain ⟨instruction, next, op⟩ := Option.map_eq_some_iff.mp closure
    obtain ⟨events, eq⟩ := Exec.step_eq_nextIp none next
    have fetched : Regular { m.withIp m.nextIp with events } := regular.fetched events
    unfold Exec.Leaves
    rw [eq, op]
    exact Exec.makeClosure_weighed fetched weighed _
  · unfold Exec.Leaves
    cases ran : Exec.step none m with
    | ok _ m' => exact (leads.of_ok ran).weighed closure regular weighed
    | error stop m' => exact (leads.of_error ran).weighed closure regular weighed

theorem Hosts.weighed (hosts : m.Hosts m') (regular : m.Regular) (weighed : m.heap.Weighed) :
    m'.heap.Weighed := by
  have clean := regular.heap.arises.clean
  cases hosts with
  | defineNative native =>
    have named : m.Turn none (m.intern native.name []).2 := .intern native.name []
    have clean' := (named.changes.regular regular).heap.arises.clean
    exact (weighed.intern clean native.name _).allocate clean' (by rintro _ _ _ ⟨⟩) _
  | intern text extra => exact weighed.intern clean text _
  | function f extra => exact weighed.allocate clean (by rintro _ _ _ ⟨⟩) _
  | native native extra => exact weighed.allocate clean (by rintro _ _ _ ⟨⟩) _
  | collect => exact weighed.collect clean _
  | tick | drain => exact weighed

theorem Occurs.weighed (occurs : m.Occurs) : m.heap.Weighed := by
  induction occurs with
  | start config sink uptime =>
    have empty : (Heap.empty config).Weighed := fun h cell found => by simp at found
    have blank : (Machine.blank config sink uptime).heap.Weighed :=
      empty.intern (clean_empty config) "init" []
    exact (Hosts.defineNative .clock).weighed (regular_blank config sink uptime) blank
  | host occurs hosts ih => exact hosts.weighed occurs.regular ih
  | enter occurs h ran ih =>
    exact ((Exec.Leads.enter none h _).of_ok ran).weighed nofun occurs.regular ih
  | @refuse m m' stop occurs h ran ih =>
    have turns := ((Exec.Leads.enter none h m).of_error ran).trans (.conclude m' stop)
    exact turns.weighed nofun occurs.regular ih
  | step occurs ran ih => exact (step_weighed occurs.regular ih).of_ok ran
  | @stop m m' stop occurs ran ih =>
    have regular : m'.Regular := ((Exec.Leads.step none m).of_error ran).changes.induct
      (fun _ _ regular change => regular.change change) occurs.regular
    have concluded : m'.Turns none (m'.conclude stop).2 := .conclude m' stop
    exact concluded.weighed nofun regular ((step_weighed occurs.regular ih).of_error ran)

/-- At any time between two instructions, and between runs, every live object is charged the size of
the header and the extra size that it has at this time; no closure has captured more than was
reserved for it; and the bytes of the heap are the sum of these sizes over the live objects. -/
theorem Occurs.charged_by_size (occurs : m.Occurs) :
    (∀ h cell, m.heap.cell? h = some cell →
      cell.charge = Object.headerSize + cell.object.extraSize) ∧
    (∀ h f upvalues reserved, m.heap.get? h = some (.closure f upvalues reserved) →
      upvalues.size ≤ reserved) ∧
    m.heap.bytes =
      (m.heap.live.map fun e => Object.headerSize + e.2.object.extraSize).sum := by
  have weighed := occurs.weighed
  refine ⟨fun h cell found => (weighed h cell found).1, fun h f upvalues reserved found => ?_, ?_⟩
  · obtain ⟨cell, live, same⟩ := Option.map_eq_some_iff.mp found
    exact (weighed h cell live).2 f upvalues reserved same
  · rw [occurs.regular.heap.arises.bytes_eq, charged_eq_live]
    exact congrArg List.sum (List.map_congr_left fun e mem =>
      (weighed e.1 e.2 (cell?_of_mem_live mem)).1)

/-- A machine that has made a class and a closure over its own script, and has added the closure to
the class as a method. -/
def growing : Machine :=
  let m := start { diagnostics := { stressCollections := true } } default .zero
  let (g, m) := m.allocate (.function ⟨none, 0, 1, default⟩) []
  let code := #[Opcode.newClass.byte, 1, Opcode.closure.byte, 2, 1, 0, Opcode.method.byte, 1]
  let script : Chunk Value := ⟨code, #[], #[.nil, .object ⟨0⟩, .object g]⟩
  let (function, m) := m.allocate (.function (.script script)) [g]
  (((m.left (enter function) none).left Exec.step none).left Exec.step none).left Exec.step none

/-- The class has been charged 112 bytes for itself and 256 more for the table of its methods. -/
theorem charged_by_size_growing :
    growing.Occurs ∧ (growing.heap.cell? ⟨6⟩).map (·.object.extraSize) = some 256 ∧
      (growing.heap.cell? ⟨6⟩).map (·.charge) = some 368 := by
  have occurs : growing.Occurs := by
    refine .left_step (.left_step (.left_step (.left_enter ?_ ?_) ?_) ?_) ?_
    · exact ((Occurs.start _ _ _).host (.function _ [])).host (.function _ [_])
    all_goals decide +kernel
  have size : (growing.heap.cell? ⟨6⟩).map (·.object.extraSize) = some 256 := by decide +kernel
  refine ⟨occurs, size, ?_⟩
  obtain ⟨cell, found, size⟩ := Option.map_eq_some_iff.mp size
  rw [found, Option.map_some, occurs.charged_by_size.1 ⟨6⟩ cell found, size]
  rfl

end Machine

end ScriptMachine
