/-
# Accounting of bytes

The bytes of a heap are kept by additions and subtractions alone. An allocation
adds what the new object is charged, a sweep takes back what the freed objects
were charged, and an object that is charged anew exchanges its old charge for its
present size. Objects change their sizes in between, and an object may even be
replaced by one of another kind, but the charge stays with the handle. So the
subtractions stay within the bytes because what they take was put there before,
not because objects keep their sizes.

A collection may record the bytes before and after it. The difference of the two
is shown in the log, so the second number must not be the larger one.

## Main definitions

* `Heap.purged` — the heap that a collection sweeps
* `Heap.freedCharges` — what the objects that a collection frees are charged
* `Heap.Accounted` — the bytes are in step with the charges

## Main results

* `sum_freed` — the charges of the live objects, split by what a collection keeps
* `Arises.ordered` — no recorded collection made the bytes grow
* `Arises.accounted` — the bytes are in step with the charges in every heap
-/

import Mathlib.Data.List.Sigma
import ScriptMachine.Proofs.Heap.Charges

namespace ScriptMachine

/-- The event is the summary of a collection. -/
def HeapEvent.isSummary : HeapEvent → Bool
  | summary _ _ _ _ _ => true
  | _ => false

namespace Heap

variable {heap after last : Heap} {roots : List Handle} {h : Handle} {cell : Cell}
  {config : Config}

/-- The heap that a collection sweeps: all that the roots keep is marked, and the strings that are
not marked have left the table. -/
def purged (heap : Heap) (roots : List Handle) : Heap :=
  let heap := (heap.record .collectionBegan).markAll roots
  (trace heap.cells.size heap).purge.2

/-- What the objects are charged that are live, and are not after a collection. -/
def freedCharges (heap : Heap) (roots : List Handle) : Nat :=
  ((heap.live.filter fun (h, _) => !(heap.collect roots).contains h).map (·.2.charge)).sum

/-- No summary on record shows more bytes after the collection than before. -/
def Ordered (heap : Heap) : Prop := ∀ before now threshold objects strings,
  .summary before now threshold objects strings ∈ heap.events → now ≤ before

/-- The bytes are in step with the charges, and whatever is subtracted was there. -/
structure Accounted (heap : Heap) : Prop where
  balance : heap.bytes = (heap.live.map (·.2.charge)).sum
  bare : (∀ h, ¬ heap.contains h) → heap.bytes = 0
  /-- Charging an object anew takes back its old charge first. -/
  recharge : ∀ h cell, heap.cell? h = some cell → cell.charge ≤ heap.bytes ∧
    (heap.recharge h).bytes + cell.charge = heap.bytes + cell.object.size
  /-- A freed object is charged nothing. -/
  recharge_freed : ∀ h, heap.cell? h = none → heap.recharge h = heap
  /-- A sweep takes back the charges of the unmarked cells. -/
  sweep : ∀ roots, (heap.purged roots).cells.foldl (· + sweptCharge ·) 0 ≤
    (heap.purged roots).bytes
  /-- A collection takes back the charges of what it frees, and nothing else. -/
  collect : ∀ roots, (heap.collect roots).bytes + heap.freedCharges roots = heap.bytes
  /-- The log shows the bytes before a collection less those after it. -/
  summaries : heap.Ordered

/-! ## Live objects before and after a collection -/

theorem mem_live_iff : (h, cell) ∈ heap.live ↔ heap.cell? h = some cell := by
  refine ⟨cell?_of_mem_live, fun found => List.mem_filterMap.mpr ⟨(some cell, h.index), ?_, rfl⟩⟩
  rw [List.mk_mem_zipIdx_iff_getElem?, Array.getElem?_toList]
  exact Option.join_eq_some_iff.mp found

theorem nodup_live (heap : Heap) : heap.live.Nodup := by
  -- A cell is listed with its own index.
  refine (List.Nodup.of_map _ (List.nodup_zipIdx_map_snd _)).filterMap ?_
  rintro ⟨cell, i⟩ ⟨cell', j⟩ ⟨h, c⟩ listed listed'
  simp only [Option.mem_def, Option.map_eq_some_iff, Prod.mk.injEq] at listed listed'
  obtain ⟨_, rfl, rfl, rfl⟩ := listed
  obtain ⟨_, rfl, same, rfl⟩ := listed'
  rw [Handle.mk.inj same]

/-- A collection leaves the live objects that it does not free, in the same cells. -/
theorem live_collect_perm (clean : heap.Clean) (roots : List Handle) :
    (heap.collect roots).live.Perm
      (heap.live.filter fun (h, _) => (heap.collect roots).contains h) := by
  refine (List.perm_ext_iff_of_nodup (nodup_live _) ((nodup_live _).filter _)).mpr ?_
  rintro ⟨h, cell⟩
  rw [List.mem_filter, mem_live_iff, mem_live_iff, cell?_collect_iff clean,
    contains_collect_iff clean]

/-- The charges of the live objects are those that a collection leaves and those that it frees. -/
theorem sum_freed (clean : heap.Clean) (roots : List Handle) :
    (heap.collect roots).charged + heap.freedCharges roots = heap.charged := by
  have split := List.filter_append_perm (fun (h, _) => (heap.collect roots).contains h) heap.live
  have kept := (live_collect_perm clean roots).map (·.2.charge)
  rw [charged_eq_live, charged_eq_live, kept.sum_eq, freedCharges, ← List.sum_append,
    ← List.map_append]
  exact (split.map (·.2.charge)).sum_eq

/-! ## What is recorded -/

theorem eq_or_mem_of_mem_record {e event : HeapEvent} (mem : e ∈ (heap.record event).events) :
    e = event ∨ e ∈ heap.events := by
  unfold record at mem
  split at mem
  · exact List.mem_cons.mp mem
  · exact .inr mem

/-- No summary is recorded on the way from one heap to the other. -/
def Quiet (heap after : Heap) : Prop := ∀ e ∈ after.events, e.isSummary → e ∈ heap.events

namespace Quiet

theorem of_events (same : after.events = heap.events) : Quiet heap after := by
  intro e mem _
  rwa [← same]

theorem trans (quiet : Quiet heap after) (quiet' : Quiet after last) : Quiet heap last :=
  fun e mem summary => quiet e (quiet' e mem summary) summary

theorem record {event : HeapEvent} (plain : event.isSummary = false) (heap : Heap) :
    Quiet heap (heap.record event) := by
  intro e mem summary
  obtain rfl | old := eq_or_mem_of_mem_record mem
  · simp [plain] at summary
  · exact old

theorem mark (heap : Heap) (h : Handle) : Quiet heap (heap.mark h) := by
  unfold Heap.mark
  split
  · exact .of_events rfl
  · split
    · exact .of_events rfl
    · exact (record rfl heap).trans (.of_events rfl)

theorem markAll (heap : Heap) (hs : List Handle) : Quiet heap (heap.markAll hs) := by
  induction hs generalizing heap with
  | nil => exact .of_events rfl
  | cons h hs ih => exact (mark heap h).trans (ih _)

theorem blacken (heap : Heap) (h : Handle) : Quiet heap (heap.blacken h) := by
  unfold Heap.blacken
  split
  · exact .of_events rfl
  · exact (record rfl heap).trans (markAll _ _)

theorem trace (heap : Heap) (bound : Nat) : Quiet heap (heap.trace bound) := by
  induction bound generalizing heap with
  | zero => exact .of_events rfl
  | succ bound ih =>
    unfold Heap.trace
    split
    · exact .of_events rfl
    next h rest _ =>
      exact (Quiet.of_events rfl).trans ((blacken { heap with gray := rest } h).trans (ih _))

theorem recordFreed (heap : Heap) : Quiet heap heap.recordFreed := by
  suffices each : ∀ (dead : List (Handle × Cell)) (heap : Heap), Quiet heap
      (dead.foldl (fun heap (h, cell) => heap.record (.freed h cell.object.kind)) heap) by
    unfold Heap.recordFreed
    split
    · exact each _ heap
    · exact .of_events rfl
  intro dead
  induction dead with
  | nil => exact fun _ => .of_events rfl
  | cons _ dead ih => exact fun heap => (record rfl heap).trans (ih _)

theorem recharge (heap : Heap) (h : Handle) : Quiet heap (heap.recharge h) := by
  unfold Heap.recharge
  split <;> exact .of_events rfl

end Quiet

/-- A collection sweeps the purged heap and records one summary, of the bytes before and after. -/
theorem exists_collect_eq (heap : Heap) (roots : List Handle) :
    ∃ threshold objects strings, ∃ after : Heap, after.bytes = (heap.purged roots).sweep.2.bytes ∧
      after.events = (heap.purged roots).sweep.2.events ∧
      heap.collect roots = (after.record .collectionEnded).record
        (.summary heap.bytes after.bytes threshold objects strings) :=
  by refine ⟨_, _, _, _, ?_, ?_, rfl⟩ <;> rfl

/-- The only summary that a collection records has the bytes before and after it. -/
theorem eq_of_mem_events_collect {before now threshold objects strings : Nat}
    (mem : .summary before now threshold objects strings ∈ (heap.collect roots).events) :
    .summary before now threshold objects strings ∈ heap.events ∨
      before = heap.bytes ∧ now = (heap.collect roots).bytes := by
  have quiet : Quiet heap (heap.purged roots).sweep.2 :=
    (Quiet.record rfl heap).trans <| (Quiet.markAll _ roots).trans <| (Quiet.trace _ _).trans <|
      (Quiet.of_events rfl).trans <| (Quiet.recordFreed (heap.purged roots)).trans <|
        .of_events rfl
  obtain ⟨_, _, _, after, bytes, events, eq⟩ := exists_collect_eq heap roots
  rw [eq] at mem ⊢
  simp only [bytes_record]
  have quiet' : Quiet heap (after.record .collectionEnded) :=
    quiet.trans ((Quiet.of_events events).trans (.record rfl after))
  obtain same | old := eq_or_mem_of_mem_record mem
  · cases same
    exact .inr ⟨rfl, rfl⟩
  · exact .inl (quiet' _ old rfl)

theorem Quiet.ordered (quiet : Quiet heap after) (ordered : heap.Ordered) : after.Ordered :=
  fun _ _ _ _ _ mem => ordered _ _ _ _ _ (quiet _ mem rfl)

theorem Ordered.collect (ordered : heap.Ordered) (covered : heap.Covered) (roots : List Handle) :
    (heap.collect roots).Ordered := by
  intro before now _ _ _ mem
  obtain old | ⟨rfl, rfl⟩ := eq_of_mem_events_collect mem
  · exact ordered _ _ _ _ _ old
  · exact covered.collect roots

theorem Ordered.allocate (ordered : heap.Ordered) (covered : heap.Covered) (object : Object)
    (roots : List Handle) : (heap.allocate object roots).2.Ordered := by
  have room : (heap.makeRoom object roots).Ordered := by
    unfold makeRoom
    split
    · exact ordered.collect covered _
    · exact ordered
  have quiet : Quiet (heap.makeRoom object roots) (heap.allocate object roots).2 :=
    (Quiet.of_events rfl).trans (.record rfl _)
  exact quiet.ordered room

theorem Arises.ordered (arises : heap.Arises config) : heap.Ordered := by
  induction arises with
  | empty => exact fun _ _ _ _ _ mem => by cases mem
  | allocate arises object roots ih => exact ih.allocate arises.covered object roots
  | intern arises text roots ih =>
    unfold Heap.intern
    split
    · exact ih
    · exact ih.allocate arises.covered (.string { text }) roots
  | modify _ h f ih => exact ih
  | recharge _ h ih => exact (Quiet.recharge _ h).ordered ih
  | collect arises roots ih => exact ih.collect arises.covered roots

/-! ## All heaps -/

/-- Purging the table of strings leaves the cells and the bytes as tracing left them. -/
theorem purged_eq (clean : heap.Clean) (roots : List Handle) :
    heap.purged roots = (heap.traced roots).purge.2 := by
  have size : ((heap.record .collectionBegan).markAll roots).cells.size = heap.cells.size :=
    ((clean.marking.record _).markAll roots).cells_size
  rw [purged, traced, size]

theorem bytes_eq_zero (same : heap.bytes = heap.charged) (bare : ∀ h, ¬ heap.contains h) :
    heap.bytes = 0 := by
  have none : heap.live = [] := List.eq_nil_iff_forall_not_mem.mpr fun (h, cell) mem =>
    bare h (contains_iff.mpr ⟨cell, mem_live_iff.mp mem⟩)
  rw [same, charged_eq_live, none]
  rfl

/-- What charging an object anew does to the bytes. -/
theorem bytes_recharge_add (found : heap.cell? h = some cell) (le : cell.charge ≤ heap.bytes) :
    (heap.recharge h).bytes + cell.charge = heap.bytes + cell.object.size := by
  have eq : (heap.recharge h).bytes = heap.bytes - cell.charge + cell.object.size := by
    rw [recharge, found]
    rfl
  omega

/-- After any operations on a heap that starts empty, whatever becomes of its objects in between,
the bytes are the sum of what the live objects are charged, and no bytes are left without an object.
What charging an object anew takes back is among the bytes, and so is what a sweep takes back. A
collection lowers the bytes by what the objects that it frees were charged, and no summary that was
recorded shows a difference below zero. -/
theorem Arises.accounted (arises : heap.Arises config) : heap.Accounted := by
  have same := arises.bytes_eq
  have covered := arises.covered
  refine ⟨same.trans (charged_eq_live heap), bytes_eq_zero same, fun h cell found => ?_,
    fun h freed => ?_, fun roots => ?_, fun roots => ?_, arises.ordered⟩
  · have le := covered.recharge h cell found
    exact ⟨le, bytes_recharge_add found le⟩
  · rw [Heap.recharge, freed]
  · rw [foldl_sweptCharge, purged_eq arises.clean]
    exact covered.sweep roots
  · rw [bytes_eq_collect arises.clean same, sum_freed arises.clean, same]

/-- A heap with a log. The fields of an instance have grown and it was charged anew; then it became
a captured variable, which is smaller, under the old charge. A string came after it, and nothing
refers to either of them. -/
def outgrown : Heap :=
  let fields := (Table.empty.insert ⟨⟨7⟩, 5⟩ .nil).2
  let heap := (empty { diagnostics := { logCollections := true } }).allocate
    (.inst ⟨7⟩ .empty) []
  let heap := (heap.2.modify ⟨0⟩ fun _ => .inst ⟨7⟩ fields).recharge ⟨0⟩
  ((heap.modify ⟨0⟩ fun _ => .upvalue (.opened 3)).intern "ab" []).2

theorem accounted_outgrown :
    outgrown.Arises { diagnostics := { logCollections := true } } ∧
    outgrown.bytes = (112 + 8 * 32) + (112 + 2) ∧
    (outgrown.recharge ⟨0⟩).bytes = 112 + (112 + 2) ∧
    outgrown.recharge ⟨7⟩ = outgrown ∧
    (outgrown.collect [⟨1⟩]).bytes = 112 + 2 ∧
    (outgrown.collect []).bytes = 0 := by
  have arises : outgrown.Arises { diagnostics := { logCollections := true } } :=
    .intern (.modify (.recharge (.modify (.allocate .empty _ _) _ _) _) _ _) _ _
  have accounted := arises.accounted
  have charges : outgrown.live.map (·.2.charge) = [112 + 8 * 32, 112 + 2] := by decide +kernel
  have total : outgrown.bytes = (112 + 8 * 32) + (112 + 2) := by
    rw [accounted.balance, charges]
    rfl
  -- The cell has the charge of the instance and the size of the captured variable.
  have changed : (outgrown.cell? ⟨0⟩).map (fun cell => (cell.charge, cell.object.size)) =
      some (112 + 8 * 32, 112) := by decide +kernel
  obtain ⟨cell, found, same⟩ := Option.map_eq_some_iff.mp changed
  obtain ⟨charge, size⟩ := Prod.mk.inj same
  obtain ⟨-, recharged⟩ := accounted.recharge ⟨0⟩ cell found
  have freed : outgrown.freedCharges [⟨1⟩] = 112 + 8 * 32 := by decide +kernel
  have freedAll : outgrown.freedCharges [] = (112 + 8 * 32) + (112 + 2) := by decide +kernel
  have kept := accounted.collect [⟨1⟩]
  have none := accounted.collect []
  exact ⟨arises, total, by omega, accounted.recharge_freed ⟨7⟩ (by decide +kernel), by omega,
    by omega⟩

end Heap

end ScriptMachine
