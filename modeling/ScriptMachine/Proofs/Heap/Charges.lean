/-
# Charges

The bytes of a heap are the sum of what its live objects are charged. So an
object is never charged more than all bytes, and neither are the objects that a
sweep frees: what is taken back has been charged before, and no subtraction
goes below zero.

## Main definitions

* `Heap.charged` — the sum of all charges
* `Heap.Covered` — the bytes cover what is taken from them

## Main results

* `Arises.bytes_eq` — the bytes of a heap are what its objects are charged
* `Arises.covered` — no subtraction goes below zero
-/

import Mathlib.Algebra.Order.BigOperators.Group.List
import Mathlib.Algebra.Order.Ring.Nat
import ScriptMachine.Proofs.Heap.Collection

namespace ScriptMachine

/-- What the object in a cell is charged. -/
def chargeOf : Option Cell → Nat
  | some cell => cell.charge
  | none => 0

namespace Heap

variable {heap base : Heap} {roots : List Handle} {h : Handle} {cell : Cell} {config : Config}

/-- What all live objects are charged. -/
def charged (heap : Heap) : Nat := (heap.cells.toList.map chargeOf).sum

/-- What a sweep takes back. -/
def swept (heap : Heap) : Nat := (heap.cells.toList.map sweptCharge).sum

/-- The bytes cover what is taken from them: the old charge of an object that is charged anew, and
in a collection the charges of the objects that were not reached, so that the bytes do not grow. -/
structure Covered (heap : Heap) : Prop where
  recharge : ∀ h cell, heap.cell? h = some cell → cell.charge ≤ heap.bytes
  sweep : ∀ roots, (heap.traced roots).swept ≤ (heap.traced roots).bytes
  collect : ∀ roots, (heap.collect roots).bytes ≤ heap.bytes

/-! ## Live objects -/

/-- Live objects are listed with their cells. -/
theorem cell?_of_mem_live (mem : (h, cell) ∈ heap.live) : heap.cell? h = some cell := by
  obtain ⟨⟨cell?, index⟩, listed, found⟩ := List.mem_filterMap.mp mem
  obtain ⟨cell', rfl, same⟩ := Option.map_eq_some_iff.mp found
  obtain ⟨rfl, rfl⟩ := Prod.mk.inj same
  have slot := List.mk_mem_zipIdx_iff_getElem?.mp listed
  rw [Array.getElem?_toList] at slot
  rw [Heap.cell?, slot]
  rfl

/-- Cells without an object are not charged. -/
theorem sum_chargeOf (cells : List (Option Cell)) (n : Nat) : (cells.map chargeOf).sum =
    (((cells.zipIdx n).filterMap fun (cell, index) =>
      cell.map ((⟨index⟩ : Handle), ·)).map (·.2.charge)).sum := by
  induction cells generalizing n with
  | nil => rfl
  | cons first rest ih =>
    cases first with
    | none => simpa [chargeOf] using ih (n + 1)
    | some cell => simpa [chargeOf] using ih (n + 1)

/-- The charges of all cells are those of the live objects. -/
theorem charged_eq_live (heap : Heap) : heap.charged = (heap.live.map (·.2.charge)).sum :=
  sum_chargeOf heap.cells.toList 0

/-! ## One object -/

theorem charge_le_charged (found : heap.cell? h = some cell) : cell.charge ≤ heap.charged := by
  have mem : some cell ∈ heap.cells.toList := by
    rw [cell?, Option.join_eq_some_iff] at found
    exact Array.mem_toList_iff.mpr (Array.mem_of_getElem? found)
  exact List.single_le_sum (by simp) _ (List.mem_map_of_mem (f := chargeOf) mem)

@[simp] theorem bytes_record (heap : Heap) (event : HeapEvent) :
    (heap.record event).bytes = heap.bytes := by unfold record; split <;> rfl

theorem charged_insert (heap : Heap) (object : Object) :
    (heap.insert object).2.charged = heap.charged + object.size := by
  simp [insert, charged, chargeOf]

private theorem sum_modify {cells : List (Option Cell)} {i : Nat} (f : Cell → Cell)
    (found : cells[i]? = some (some cell)) :
    ((cells.modify i (Option.map f)).map chargeOf).sum + cell.charge =
      (cells.map chargeOf).sum + (f cell).charge := by
  induction cells generalizing i with
  | nil => simp at found
  | cons first rest ih =>
    cases i with
    | zero =>
      obtain rfl : first = some cell := by simpa using found
      simp only [List.modify_zero_cons, Option.map_some, List.map_cons, List.sum_cons, chargeOf]
      omega
    | succ i =>
      have := ih (by simpa using found)
      simp only [List.modify_succ_cons, List.map_cons, List.sum_cons]
      omega

/-- Changing the cell of an object exchanges one charge for another. -/
theorem charged_modifyCell (f : Cell → Cell) (found : heap.cell? h = some cell) :
    (heap.modifyCell h f).charged + cell.charge = heap.charged + (f cell).charge := by
  have slot : heap.cells.toList[h.index]? = some (some cell) := by
    simpa [cell?, Option.join_eq_some_iff] using found
  simpa [charged, modifyCell] using sum_modify f slot

/-- Without an object there is nothing to change. -/
theorem charged_modifyCell_of_none (f : Cell → Cell) (none : heap.cell? h = none) :
    (heap.modifyCell h f).charged = heap.charged := by
  have same : heap.cells.toList.modify h.index (Option.map f) = heap.cells.toList := by
    refine List.ext_getElem? fun i => ?_
    rw [List.getElem?_modify]
    split
    next eq =>
      subst eq
      rw [cell?, Option.join_eq_none_iff] at none
      rcases none with none | none <;> simp [none]
    next => simp
  simp only [charged, modifyCell, Array.toList_modify, same]

theorem charged_modify (heap : Heap) (h : Handle) (f : Object → Object) :
    (heap.modify h f).charged = heap.charged := by
  cases found : heap.cell? h with
  | none => exact charged_modifyCell_of_none _ found
  | some cell => exact Nat.add_right_cancel (charged_modifyCell _ found)

/-- Charging an object anew keeps the bytes in step with the charges. -/
theorem bytes_recharge (same : heap.bytes = heap.charged) (h : Handle) :
    (heap.recharge h).bytes = (heap.recharge h).charged := by
  unfold recharge
  split
  · exact same
  next cell found =>
    have le := charge_le_charged found
    -- The bytes are brought up to date before the cell is.
    have found : ({ heap with bytes := heap.bytes - cell.charge + cell.object.size } :
        Heap).cell? h = some cell := found
    have moved : _ + cell.charge = heap.charged + cell.object.size :=
      charged_modifyCell ({ · with charge := cell.object.size }) found
    refine Nat.add_right_cancel (Eq.trans ?_ moved.symm)
    change heap.bytes - cell.charge + cell.object.size + cell.charge = _
    omega

/-! ## Collections -/

/-- Marking leaves the charges alone. -/
theorem Marking.charged (marking : Marking base heap) : heap.charged = base.charged := by
  have same : heap.cells.toList.map chargeOf = base.cells.toList.map chargeOf := by
    refine List.ext_getElem (by simp [marking.cells_size]) fun i lt lt' => ?_
    simp only [List.length_map, Array.length_toList] at lt lt'
    have cell := marking.cell ⟨i⟩
    simp only [cell?, Array.getElem?_eq_getElem lt, Array.getElem?_eq_getElem lt',
      Option.join_some] at cell
    simp only [List.getElem_map, Array.getElem_toList, ← cell]
    cases heap.cells[i] <;> rfl
  rw [Heap.charged, same, ← Heap.charged]

/-- A cell keeps its charge in a sweep, or it is taken back. -/
private theorem sum_sweep (cells : List (Option Cell)) :
    ((cells.map (·.bind sweepCell)).map chargeOf).sum + (cells.map sweptCharge).sum =
      (cells.map chargeOf).sum := by
  induction cells with
  | nil => rfl
  | cons first rest ih =>
    have here : chargeOf (first.bind sweepCell) + sweptCharge first = chargeOf first := by
      cases first with
      | none => rfl
      | some cell =>
        by_cases marked : cell.marked <;> simp [sweepCell, sweptCharge, chargeOf, marked]
    simp only [List.map_cons, List.sum_cons]
    omega

theorem charged_collect (clean : heap.Clean) (roots : List Handle) :
    (heap.collect roots).charged + (heap.traced roots).swept = heap.charged := by
  rw [← (clean.tracing roots).marking.charged, charged, cells_collect clean, Array.toList_map]
  exact sum_sweep _

/-- A sweep adds up what it takes back. -/
theorem foldl_sweptCharge (heap : Heap) :
    heap.cells.foldl (· + sweptCharge ·) 0 = heap.swept := by
  rw [← Array.foldl_toList, swept, List.sum_eq_foldl, List.foldl_map]

theorem bytes_collect (clean : heap.Clean) (roots : List Handle) :
    (heap.collect roots).bytes = (heap.traced roots).bytes - (heap.traced roots).swept := by
  have size : ((heap.record .collectionBegan).markAll roots).cells.size = heap.cells.size :=
    ((clean.marking.record _).markAll roots).cells_size
  obtain ⟨events, eq⟩ := recordFreed_eq (heap.traced roots).purge.2
  simp only [collect, bytes_record, size]
  rw [← traced, sweep, eq, foldl_sweptCharge]
  rfl

/-! ## All operations -/

theorem bytes_insert (same : heap.bytes = heap.charged) (object : Object) :
    (heap.insert object).2.bytes = (heap.insert object).2.charged := by
  rw [charged_insert, ← same]
  simp [insert]

theorem bytes_eq_collect (clean : heap.Clean) (same : heap.bytes = heap.charged)
    (roots : List Handle) : (heap.collect roots).bytes = (heap.collect roots).charged := by
  have split := charged_collect clean roots
  rw [bytes_collect clean, (clean.tracing roots).marking.bytes, same]
  omega

theorem bytes_allocate (clean : heap.Clean) (same : heap.bytes = heap.charged) (object : Object)
    (roots : List Handle) :
    (heap.allocate object roots).2.bytes = (heap.allocate object roots).2.charged := by
  apply bytes_insert
  unfold makeRoom
  split
  · exact bytes_eq_collect clean same _
  · exact same

/-- The bytes of a heap are the sum of what its live objects are charged. -/
theorem Arises.bytes_eq (arises : heap.Arises config) : heap.bytes = heap.charged := by
  induction arises with
  | empty => rfl
  | allocate before object roots ih => exact bytes_allocate before.clean ih object roots
  | intern before text roots ih =>
    unfold Heap.intern
    split
    · exact ih
    · exact bytes_allocate before.clean ih (.string { text }) roots
  | modify _ h f ih => exact ih.trans (charged_modify _ h f).symm
  | recharge _ h ih => exact bytes_recharge ih h
  | collect before roots ih => exact bytes_eq_collect before.clean ih roots

/-- No operation takes more from the bytes of a heap than there is. -/
theorem Arises.covered (arises : heap.Arises config) : heap.Covered := by
  have same := arises.bytes_eq
  have marked (roots : List Handle) := (arises.clean.tracing roots).marking
  refine ⟨fun h cell found => ?_, fun roots => ?_, fun roots => ?_⟩
  · rw [same]
    exact charge_le_charged found
  · have split := charged_collect arises.clean roots
    rw [(marked roots).bytes, same]
    omega
  · rw [bytes_collect arises.clean, (marked roots).bytes]
    exact Nat.sub_le _ _

end Heap

end ScriptMachine
