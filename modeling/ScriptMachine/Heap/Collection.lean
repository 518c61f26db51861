/-
# Collections

A collection keeps the objects that can be reached from the roots along
references, and frees all others. Roots are marked and put on the gray list;
then objects are taken from the list one by one and what they refer to is
marked in turn, until the list is empty. An object is put on the list when it
is marked, so it is there at most once.

The table of interned strings does not keep its strings alive: strings that
were not marked are erased from it before the unmarked objects are freed.
-/

import ScriptMachine.Heap.Basic

namespace ScriptMachine

namespace Heap

/-- Mark a live object and put it on the gray list, unless it is marked already. -/
def mark (heap : Heap) (h : Handle) : Heap :=
  match heap.cell? h with
  | none => heap
  | some cell =>
    if cell.marked then heap
    else
      let heap := heap.record (.marked h cell.object.kind)
      { heap with gray := h :: heap.gray }.modifyCell h ({ · with marked := true })

/-- Mark objects one after the other. -/
def markAll (heap : Heap) (hs : List Handle) : Heap := hs.foldl mark heap

/-- Mark what an object refers to. -/
def blacken (heap : Heap) (h : Handle) : Heap :=
  match heap.get? h with
  | none => heap
  | some object => (heap.record (.blackened h object.kind)).markAll object.references

/-- Blacken objects from the gray list, at most as many as `bound`. -/
def trace : (bound : Nat) → Heap → Heap
  | 0, heap => heap
  | bound + 1, heap =>
    match heap.gray with
    | [] => heap
    | h :: rest => trace bound (blacken { heap with gray := rest } h)

/-- The object is live and marked. -/
def isMarked (heap : Heap) (h : Handle) : Bool := ((heap.cell? h).map (·.marked)).getD false

/-- What a sweep leaves of a cell: a marked object stays, without its mark. -/
def sweepCell (cell : Cell) : Option Cell :=
  if cell.marked then some { cell with marked := false } else none

/-- What a sweep takes back for a cell: the charge of an object that is not marked. -/
def sweptCharge : Option Cell → Nat
  | some cell => if cell.marked then 0 else cell.charge
  | none => 0

/-- The cell holds an object that is not marked. -/
def isUnmarked : Option Cell → Bool
  | some cell => !cell.marked
  | none => false

/-- Record the objects that a sweep is about to free, if events are recorded. -/
def recordFreed (heap : Heap) : Heap :=
  if heap.diagnostics.logCollections then
    let dead := heap.live.filter (!·.2.marked)
    dead.foldl (fun heap (h, cell) => heap.record (.freed h cell.object.kind)) heap
  else heap

/-- Free every object that is not marked and clear the marks of the others; the number of freed
objects is given too. -/
def sweep (heap : Heap) : Nat × Heap :=
  let heap := heap.recordFreed
  let freed := heap.cells.countP isUnmarked
  let bytes := heap.bytes - heap.cells.foldl (· + sweptCharge ·) 0
  (freed, { heap with bytes, cells := heap.cells.map (·.bind sweepCell) })

/-- Erase the strings that are not marked from the table of interned strings, and give their
number. -/
def purge (heap : Heap) : Nat × Heap :=
  let (purged, interned) := heap.interned.eraseUnless heap.isMarked
  (purged, { heap with interned })

/-- Free what cannot be reached from the roots. The number of cells bounds how many objects can be
blackened. -/
def collect (heap : Heap) (roots : List Handle) : Heap :=
  let before := heap.bytes
  let heap := (heap.record .collectionBegan).markAll roots
  -- Strings leave the table before the sweep, as long as the marks tell which ones stay.
  let (purged, heap) := (trace heap.cells.size heap).purge
  let (freed, heap) := heap.sweep
  let threshold := heap.bytes * heap.growth
  let heap := { heap with threshold, collections := heap.collections + 1 }
  (heap.record .collectionEnded).record (.summary before heap.bytes threshold freed purged)

end Heap

end ScriptMachine
