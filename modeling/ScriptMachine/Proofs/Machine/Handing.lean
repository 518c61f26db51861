/-
# Host functions that hand on what they are given

A host function may give whatever it likes, also a handle whose object has been
freed. But what the ones provided here give either holds no handle or is one of
their arguments. The arguments lie on the stack, so such a result is as good as
what the machine held before.

Byte code makes no host functions. If all those that a machine has been given
are of this kind, then none of them ever breaks a promise of the host, whatever
code is run.

## Main definitions

* `Native.HandsOn` — what the host function gives holds no handle or is an argument
* `Heap.HandsOn` — all host functions in the heap are of this kind
* `Machine.Serves` — these are the host functions of the machine
* `Machine.serving` — a machine that provides some host functions

## Main results

* `Turns.serves` — instructions make no other ones
* `Intact.honest` — such host functions keep every promise
* `Reachable.runChunk_of_handsOn` — with them, a run asks for promises about constants only
* `nothingDangles_of_handsOn` — so no handle is left of an object that was freed
-/

import ScriptMachine.Proofs.Machine.Safety

namespace ScriptMachine

open Heap

/-! ## Host functions -/

namespace Native

/-- What the host function gives holds no handle, or it is one of the arguments. -/
def HandsOn (native : Native) : Prop :=
  ∀ uptime arguments h, (native.apply uptime arguments).handle? = some h →
    native.apply uptime arguments ∈ arguments

theorem handsOn_clock : clock.HandsOn := nofun

theorem handsOn_sum (name : String) : (sum name).HandsOn := nofun

theorem handsOn_count (name : String) : (count name).HandsOn := nofun

theorem handsOn_last (name : String) : (last name).HandsOn := by
  intro uptime arguments h handle
  change (arguments.back?.getD .nil).handle? = some h at handle
  change arguments.back?.getD .nil ∈ arguments
  cases eq : arguments.back? with
  | none =>
    rw [eq] at handle
    cases handle
  | some v => exact Array.mem_of_back? eq

end Native

/-! ## Heaps -/

namespace Heap

variable {heap : Heap} {h : Handle}

/-- All host functions in the heap hand on what they are given. -/
def HandsOn (heap : Heap) : Prop :=
  ∀ h native, heap.get? h = some (.native native) → native.HandsOn

namespace HandsOn

theorem allocate (handsOn : heap.HandsOn) (clean : heap.Clean) {object : Object}
    (also : ∀ native, object = .native native → native.HandsOn) (roots : List Handle) :
    (heap.allocate object roots).2.HandsOn := by
  intro h native found
  have allocated := allocated_allocate clean object roots
  by_cases new : h = (heap.allocate object roots).1
  · rw [new, get?, allocated.new] at found
    exact also native (Option.some.inj found)
  · exact handsOn h native (allocated.get?_old new found)

theorem intern (handsOn : heap.HandsOn) (clean : heap.Clean) (text : String)
    (roots : List Handle) : (heap.intern text roots).2.HandsOn := by
  unfold Heap.intern
  split
  · exact handsOn
  · exact handsOn.allocate clean (fun _ eq => by cases eq) roots

/-- Objects may be changed as long as none becomes a host function. -/
theorem modify (handsOn : heap.HandsOn) {f : Object → Object}
    (kept : ∀ object native, f object = .native native → object = .native native) :
    (heap.modify h f).HandsOn := by
  intro k native found
  rw [get?_modify] at found
  split at found
  · obtain ⟨object, before, become⟩ := Option.map_eq_some_iff.mp found
    exact handsOn k native (by rw [before, kept object native become])
  · exact handsOn k native found

theorem recharge (handsOn : heap.HandsOn) : (heap.recharge h).HandsOn :=
  fun k native found => handsOn k native (by rwa [get?_recharge] at found)

end HandsOn

end Heap

/-! ## Machines -/

namespace Machine

variable {c : Custody} {m m' : Machine} {op : Option Opcode} {h : Handle} {chunk : Chunk Value}

/-- Instructions make no host functions. -/
theorem Turn.handsOn (turn : m.Turn op m') (clean : m.heap.Clean) (handsOn : m.heap.HandsOn) :
    m'.heap.HandsOn := by
  cases turn with
  | allocate object extra _ _ _ scripted =>
    refine handsOn.allocate clean (fun native eq => ?_) _
    rw [eq] at scripted
    exact absurd rfl scripted
  | intern text extra => exact handsOn.intern clean text _
  | setUpvalue => exact handsOn.modify nofun
  | pushCaptured =>
    refine handsOn.modify fun object native become => ?_
    cases object <;> first | exact become | cases become
  | setFields | setMethods =>
    refine HandsOn.recharge (handsOn.modify fun object native become => ?_)
    cases object <;> first | exact become | cases become
  | push | stack | enter | frames | globals | openUpvalues | sink | events => exact handsOn

/-- The machine keeps its limits, and its host functions hand on what they are given. -/
structure Serves (m : Machine) : Prop where
  regular : m.Regular
  handsOn : m.heap.HandsOn

theorem Turns.serves (turns : m.Turns op m') (serves : m.Serves) : m'.Serves := by
  refine ⟨turns.changes.regular serves.regular, ?_⟩
  induction turns with
  | refl => exact serves.handsOn
  | tail turns turn ih =>
    exact turn.handsOn ((Turns.changes turns).regular serves.regular).heap.arises.clean ih

/-- Host functions that hand on what they are given keep every promise. -/
theorem Intact.honest (intact : m.Intact c) (handsOn : m.heap.HandsOn) : m.Honest c := by
  intro callee count _ native ⟨k, _, found⟩ h handle
  have handed := handsOn k native found _ _ h handle
  obtain ⟨i, _, eq⟩ := Array.mem_extract_iff_getElem.mp handed
  have there : m.answer native count ∈ m.stack := by
    rw [answer, ← eq]
    exact Array.getElem_mem _
  exact intact.stack _ there h handle

/-! ## What hosts provide -/

theorem handsOn_defineNative {native : Native} (handsOn : m.heap.HandsOn) (clean : m.heap.Clean)
    (also : native.HandsOn) : (m.defineNative native).heap.HandsOn := by
  refine (handsOn.intern clean _ _).allocate (clean.intern _ _) (fun _ eq => ?_) _
  cases eq
  exact also

/-- The host function that every machine provides is of this kind. -/
theorem handsOn_start (config : Config) (sink : Sink) (uptime : Number) :
    (start config sink uptime).heap.HandsOn := by
  have nothing : (empty config).HandsOn := fun h native found => by simp [get?] at found
  have clean := clean_empty config
  exact handsOn_defineNative (m := blank config sink uptime) (nothing.intern clean _ _)
    (clean.intern _ _) Native.handsOn_clock

/-- A machine that provides these host functions. -/
def serving (natives : List Native) (config : Config) (sink : Sink) (uptime : Number) : Machine :=
  natives.foldl defineNative (start config sink uptime)

theorem serving_of_handsOn {natives : List Native} {config : Config} {sink : Sink}
    {uptime : Number} (each : ∀ native ∈ natives, native.HandsOn) (c : Custody) :
    (serving natives config sink uptime).Reachable c ∧
      (serving natives config sink uptime).heap.HandsOn := by
  have extended {m : Machine} (reachable : m.Reachable c) (handsOn : m.heap.HandsOn) :
      (natives.foldl defineNative m).Reachable c ∧
        (natives.foldl defineNative m).heap.HandsOn := by
    induction natives generalizing m with
    | nil => exact ⟨reachable, handsOn⟩
    | cons first rest ih =>
      obtain ⟨also, each⟩ := List.forall_mem_cons.mp each
      exact ih each (reachable.defineNative first)
        (handsOn_defineNative handsOn reachable.intact.heap.clean also)
  exact extended (.start config sink uptime) (handsOn_start config sink uptime)

/-! ## Runs -/

/-- No step ever breaks a promise. -/
theorem Reachable.along_of_handsOn {bound : Nat} (reachable : m.Reachable c)
    (handsOn : m.heap.HandsOn) : m.Along (Honest c) bound := by
  induction bound generalizing m with
  | zero => exact trivial
  | succ bound ih =>
    have honest := reachable.intact.honest handsOn
    refine ⟨honest, fun m' ran => ih (reachable.step honest ran) ?_⟩
    have turns := (Exec.Leads.step none m).of_ok ran
    exact (turns.serves ⟨reachable.regular, handsOn⟩).handsOn

theorem Serves.steps {bound : Nat} (serves : m.Serves) : (m.steps bound).2.Serves := by
  induction bound generalizing m with
  | zero => exact serves
  | succ bound ih =>
    rw [Machine.steps]
    cases ran : Exec.step none m with
    | ok _ m' => exact ih (((Exec.Leads.step none m).of_ok ran).serves serves)
    | error stop m' => exact ((Exec.Leads.step none m).of_error ran).serves serves

/-- The end of a run is no instruction, and makes no host functions either. -/
theorem Serves.conclude (serves : m.Serves) (stop : Stop) : (m.conclude stop).2.Serves :=
  (show m.Turns none _ from .conclude m stop).serves serves

theorem Serves.runFunction {bound : Nat} (serves : m.Serves) :
    (m.runFunction bound h).2.Serves := by
  unfold Machine.runFunction
  split
  next stop m' ran =>
    exact (((Exec.Leads.enter none h m).of_error ran).serves serves).conclude stop
  next m' ran =>
    have after : (m'.steps bound).2.Serves :=
      (((Exec.Leads.enter none h m).of_ok ran).serves serves).steps
    split
    next m'' eq => rwa [eq] at after
    next stop m'' eq =>
      rw [eq] at after
      exact after.conclude stop

/-- If the host functions of a machine hand on what they are given, a run asks for no promise about
them, only for the one about its constants. The next run asks for no more. -/
theorem Reachable.runChunk_of_handsOn {bound : Nat} (reachable : m.Reachable c)
    (handsOn : m.heap.HandsOn) (promised : ∀ v ∈ chunk.constants, v.Held c m.heap) :
    (m.runChunk bound chunk).2.Reachable c ∧ (m.runChunk bound chunk).2.heap.HandsOn := by
  have allocated := reachable.allocate_script promised
  have serves : (m.allocate (.function (.script chunk)) []).2.Serves :=
    ⟨allocated.regular, handsOn.allocate reachable.intact.heap.clean (fun _ eq => by cases eq) _⟩
  refine ⟨allocated.runFunction fun m' ran => ?_, serves.runFunction.handsOn⟩
  have turns := (Exec.Leads.enter none _ _).of_ok ran
  exact (allocated.enter _ ran).along_of_handsOn (turns.serves serves).handsOn

/-- Where all host functions hand on what they are given, nothing dangles after a chunk of live
constants has been run. -/
theorem nothingDangles_of_handsOn {natives : List Native} {config : Config} {sink : Sink}
    {uptime : Number} {bound : Nat} (each : ∀ native ∈ natives, native.HandsOn)
    (promised : ∀ v ∈ chunk.constants, v.Held .live (serving natives config sink uptime).heap) :
    ((serving natives config sink uptime).runChunk bound chunk).2.NothingDangles := by
  obtain ⟨reachable, handsOn⟩ := serving_of_handsOn each .live
  exact (reachable.runChunk_of_handsOn handsOn promised).1.intact.nothingDangles

end Machine

end ScriptMachine
