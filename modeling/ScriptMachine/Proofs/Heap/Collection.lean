/-
# Collections are exact

A collection frees what the roots do not keep and nothing else. What it keeps
stays as it was, under its handle, with its content and its charge; afterwards
no object is marked and none is gray, so the next collection starts as clean as
this one.

An allocation that collects does the same with the references of the new object
as further roots. The handle of the new object is that of no object before.

## Main definitions

* `Heap.Arises` — the heaps that the operations of a heap lead to
* `Heap.Allocated` — what an allocation does to the objects of a heap

## Main results

* `cell?_collect_iff` — what is in the heap after a collection
* `allocated_allocate` — every allocation, with or without a collection
* `Arises.clean` — no operation leaves marks behind
-/

import ScriptMachine.Proofs.Heap.Marking

namespace ScriptMachine

namespace Heap

variable {heap : Heap} {roots : List Handle} {h k : Handle}

/-! ## The parts of a collection -/

private theorem fold_record_eq (dead : List (Handle × Cell)) (heap : Heap) : ∃ events,
    dead.foldl (fun heap (h, cell) => heap.record (.freed h cell.object.kind)) heap =
      { heap with events } := by
  induction dead generalizing heap with
  | nil => exact ⟨heap.events, rfl⟩
  | cons first dead ih =>
    obtain ⟨events, eq⟩ := ih (heap.record (.freed first.1 first.2.object.kind))
    refine ⟨events, eq.trans ?_⟩
    unfold record
    split <;> rfl

theorem recordFreed_eq (heap : Heap) : ∃ events, heap.recordFreed = { heap with events } := by
  unfold recordFreed
  split
  · exact fold_record_eq _ heap
  · exact ⟨heap.events, rfl⟩

@[simp] theorem cells_recordFreed (heap : Heap) : heap.recordFreed.cells = heap.cells := by
  obtain ⟨_, eq⟩ := recordFreed_eq heap
  rw [eq]

@[simp] theorem gray_recordFreed (heap : Heap) : heap.recordFreed.gray = heap.gray := by
  obtain ⟨_, eq⟩ := recordFreed_eq heap
  rw [eq]

@[simp] theorem interned_recordFreed (heap : Heap) :
    heap.recordFreed.interned = heap.interned := by
  obtain ⟨_, eq⟩ := recordFreed_eq heap
  rw [eq]

/-- The heap of a collection when all marking is done. -/
def traced (heap : Heap) (roots : List Handle) : Heap :=
  trace heap.cells.size ((heap.record .collectionBegan).markAll roots)

theorem Clean.tracing (clean : heap.Clean) (roots : List Handle) :
    Tracing heap roots (heap.traced roots) :=
  (Tracing.start clean roots _).trace _

theorem Clean.isMarked_traced_iff (clean : heap.Clean) (roots : List Handle) (h : Handle) :
    (heap.traced roots).isMarked h ↔ heap.Reach roots h :=
  isMarked_trace_iff clean roots _

/-- A collection traces with as many steps as there are cells. -/
private theorem size_markAll_record (clean : heap.Clean) (roots : List Handle)
    (event : HeapEvent) : ((heap.record event).markAll roots).cells.size = heap.cells.size :=
  ((clean.marking.record event).markAll roots).cells_size

theorem cells_collect (clean : heap.Clean) (roots : List Handle) :
    (heap.collect roots).cells = (heap.traced roots).cells.map (·.bind sweepCell) := by
  simp [collect, purge, sweep, size_markAll_record clean, traced]

theorem gray_collect (clean : heap.Clean) (roots : List Handle) :
    (heap.collect roots).gray = (heap.traced roots).gray := by
  simp [collect, purge, sweep, size_markAll_record clean, traced]

theorem interned_collect (clean : heap.Clean) (roots : List Handle) :
    (heap.collect roots).interned =
      (heap.interned.eraseUnless (heap.traced roots).isMarked).2 := by
  rw [← (clean.tracing roots).marking.interned]
  simp [collect, purge, sweep, size_markAll_record clean, traced]

/-! ## What a collection leaves -/

theorem cell?_collect (clean : heap.Clean) (roots : List Handle) (h : Handle) :
    (heap.collect roots).cell? h = ((heap.traced roots).cell? h).bind sweepCell := by
  simp only [cell?, cells_collect clean, Array.getElem?_map]
  cases (heap.traced roots).cells[h.index]? <;> rfl

/-- A cell is there after a collection exactly if it was there before, with the same object and the
same charge, and the roots keep it. -/
theorem cell?_collect_iff {cell : Cell} (clean : heap.Clean) :
    (heap.collect roots).cell? h = some cell ↔
      heap.cell? h = some cell ∧ heap.Reach roots h := by
  have same := (clean.tracing roots).marking.cell h
  rw [cell?_collect clean, ← clean.isMarked_traced_iff, isMarked_iff, ← same]
  cases found : (heap.traced roots).cell? h with
  | none => simp
  | some c => by_cases marked : c.marked <;> simp [sweepCell, Cell.unmark, marked]

theorem cell?_collect_of_reach (clean : heap.Clean) (reach : heap.Reach roots h) :
    (heap.collect roots).cell? h = heap.cell? h := by
  obtain ⟨cell, found⟩ := contains_iff.mp reach.live
  rw [found, cell?_collect_iff clean]
  exact ⟨found, reach⟩

theorem get?_collect_iff {object : Object} (clean : heap.Clean) :
    (heap.collect roots).get? h = some object ↔
      heap.get? h = some object ∧ heap.Reach roots h := by
  simp only [get?, Option.map_eq_some_iff, cell?_collect_iff clean]
  constructor
  · rintro ⟨cell, ⟨found, reach⟩, eq⟩
    exact ⟨⟨cell, found, eq⟩, reach⟩
  · rintro ⟨⟨cell, found, eq⟩, reach⟩
    exact ⟨cell, ⟨found, reach⟩, eq⟩

theorem contains_collect_iff (clean : heap.Clean) :
    (heap.collect roots).contains h ↔ heap.Reach roots h := by
  rw [contains_iff_get?]
  simp only [get?_collect_iff clean]
  constructor
  · rintro ⟨_, _, reach⟩
    exact reach
  · intro reach
    obtain ⟨object, found⟩ := contains_iff_get?.mp reach.live
    exact ⟨object, found, reach⟩

theorem Clean.collect (clean : heap.Clean) (roots : List Handle) :
    (heap.collect roots).Clean where
  gray := by
    rw [gray_collect clean]
    apply gray_trace
    rw [pending_markAll]
    simp only [pending, cells_record, gray_record, clean.gray, List.length_nil, Nat.add_zero]
    exact Array.countP_le_size
  unmarked h cell found := clean.unmarked h cell ((cell?_collect_iff clean).mp found).1

theorem size_cells_collect (clean : heap.Clean) (roots : List Handle) :
    (heap.collect roots).cells.size = heap.cells.size := by
  rw [cells_collect clean, Array.size_map, (clean.tracing roots).marking.cells_size]

/-! ## Allocation -/

/-- What an allocation of an object with these roots does: the object is found under a fresh handle,
the objects that the roots or the new object itself keep stay as they were, no freed object comes
back, and what an object refers to stays with it. -/
structure Allocated (heap : Heap) (object : Object) (roots : List Handle) (h : Handle)
    (after : Heap) : Prop where
  fresh : h = ⟨heap.cells.size⟩
  size : after.cells.size = heap.cells.size + 1
  new : after.cell? h = some ⟨object, object.size, false⟩
  kept : ∀ k, heap.Reach (roots ++ object.references) k → after.cell? k = heap.cell? k
  old : ∀ k, k ≠ h → after.contains k → after.cell? k = heap.cell? k
  closed : ∀ k kept r, k ≠ h → after.get? k = some kept → r ∈ kept.references →
    heap.contains r → after.contains r
  clean : after.Clean

theorem Clean.makeRoom (clean : heap.Clean) (object : Object) (roots : List Handle) :
    (heap.makeRoom object roots).Clean := by
  unfold Heap.makeRoom
  split
  · exact clean.collect _
  · exact clean

theorem size_cells_makeRoom (clean : heap.Clean) (object : Object) (roots : List Handle) :
    (heap.makeRoom object roots).cells.size = heap.cells.size := by
  unfold makeRoom
  split
  · exact size_cells_collect clean _
  · rfl

theorem size_cells_insert (heap : Heap) (object : Object) :
    (heap.insert object).2.cells.size = heap.cells.size + 1 := by
  simp [insert]

theorem Clean.insert (clean : heap.Clean) (object : Object) : (heap.insert object).2.Clean where
  gray := by simpa [Heap.insert] using clean.gray
  unmarked h cell found := by
    rw [cell?_insert] at found
    split at found
    · cases found; rfl
    · exact clean.unmarked h cell found

/-- The handle of the next cell is that of no object. -/
theorem not_contains_next (heap : Heap) : ¬ heap.contains ⟨heap.cells.size⟩ :=
  fun live => absurd (lt_size_of_contains live) (Nat.lt_irrefl _)

/-- Making room leaves a live object and what it refers to, or frees the object. -/
theorem cell?_makeRoom (clean : heap.Clean) {object : Object}
    (live : (heap.makeRoom object roots).contains k) :
    (heap.makeRoom object roots).cell? k = heap.cell? k ∧
      ∀ kept r, heap.get? k = some kept → r ∈ kept.references → heap.contains r →
        (heap.makeRoom object roots).contains r := by
  revert live
  unfold makeRoom
  split
  · intro live
    have reach := (contains_collect_iff clean).mp live
    exact ⟨cell?_collect_of_reach clean reach, fun kept r found mem there =>
      (contains_collect_iff clean).mpr (.reference reach found mem there)⟩
  · exact fun _ => ⟨rfl, fun _ _ _ _ there => there⟩

theorem allocated_allocate (clean : heap.Clean) (object : Object) (roots : List Handle) :
    heap.Allocated object roots (heap.allocate object roots).1
      (heap.allocate object roots).2 := by
  have size := size_cells_makeRoom clean object roots
  have fresh : (heap.allocate object roots).1 = ⟨heap.cells.size⟩ := by
    rw [allocate, insert_fst, size]
  have cell {k : Handle} (other : k ≠ ⟨heap.cells.size⟩) :
      (heap.allocate object roots).2.cell? k = (heap.makeRoom object roots).cell? k := by
    rw [allocate, cell?_insert, insert_fst, size, if_neg other]
  refine ⟨fresh, ?_, ?_, fun k reach => ?_, fun k other live => ?_,
    fun k kept r other found mem there => ?_, (clean.makeRoom object roots).insert object⟩
  · rw [allocate, size_cells_insert, size]
  · simp [allocate, cell?_insert]
  · rw [cell fun eq => not_contains_next heap (eq ▸ reach.live), makeRoom]
    split
    · exact cell?_collect_of_reach clean reach
    · rfl
  · rw [fresh] at other
    rw [contains, cell other] at live
    rw [cell other]
    exact (cell?_makeRoom clean live).1
  · rw [fresh] at other
    rw [get?, cell other] at found
    have live : (heap.makeRoom object roots).contains k := contains_of_get? found
    obtain ⟨same, closed⟩ := cell?_makeRoom clean live
    rw [same] at found
    rw [contains, cell fun eq => not_contains_next heap (eq ▸ there)]
    exact closed kept r found mem there

/-! ## The other operations -/

theorem Clean.modifyCell {f : Cell → Cell} (clean : heap.Clean) (h : Handle)
    (keeps : ∀ cell, (f cell).marked = cell.marked) : (heap.modifyCell h f).Clean where
  gray := clean.gray
  unmarked k cell found := by
    rw [cell?_modifyCell] at found
    split at found
    next =>
      obtain ⟨before, found, eq⟩ := Option.map_eq_some_iff.mp found
      exact eq ▸ (keeps before).trans (clean.unmarked _ before found)
    next => exact clean.unmarked k cell found

theorem Clean.modify (clean : heap.Clean) (h : Handle) (f : Object → Object) :
    (heap.modify h f).Clean := clean.modifyCell h fun _ => rfl

theorem Clean.recharge (clean : heap.Clean) (h : Handle) : (heap.recharge h).Clean := by
  unfold Heap.recharge
  split
  · exact clean
  next cell _ =>
    have clean : { heap with bytes := heap.bytes - cell.charge + cell.object.size }.Clean :=
      ⟨clean.gray, clean.unmarked⟩
    exact clean.modifyCell h fun _ => rfl

theorem Clean.allocate (clean : heap.Clean) (object : Object) (roots : List Handle) :
    (heap.allocate object roots).2.Clean := (allocated_allocate clean object roots).clean

theorem Clean.intern (clean : heap.Clean) (text : String) (roots : List Handle) :
    (heap.intern text roots).2.Clean := by
  unfold Heap.intern
  split
  · exact clean
  · have after := clean.allocate (.string { text }) roots
    exact ⟨after.gray, after.unmarked⟩

theorem clean_empty (config : Config) : (empty config).Clean where
  gray := rfl
  unmarked h cell found := by simp at found

/-- The heaps that the operations of a heap lead to. An object may be replaced by any other and may
refer to anything, freed objects included; field and method tables are changed in this way too. -/
inductive Arises (config : Config) : Heap → Prop
  | empty : Arises config (empty config)
  | allocate {heap : Heap} (arises : Arises config heap) (object : Object) (roots : List Handle) :
    Arises config (heap.allocate object roots).2
  | intern {heap : Heap} (arises : Arises config heap) (text : String) (roots : List Handle) :
    Arises config (heap.intern text roots).2
  | modify {heap : Heap} (arises : Arises config heap) (h : Handle) (f : Object → Object) :
    Arises config (heap.modify h f)
  | recharge {heap : Heap} (arises : Arises config heap) (h : Handle) :
    Arises config (heap.recharge h)
  | collect {heap : Heap} (arises : Arises config heap) (roots : List Handle) :
    Arises config (heap.collect roots)

/-- Between its operations no heap holds marks. -/
theorem Arises.clean {config : Config} (arises : heap.Arises config) : heap.Clean := by
  induction arises with
  | empty => exact clean_empty config
  | allocate _ object roots ih => exact ih.allocate object roots
  | intern _ text roots ih => exact ih.intern text roots
  | modify _ h f ih => exact ih.modify h f
  | recharge _ h ih => exact ih.recharge h
  | collect _ roots ih => exact ih.collect roots

/-! ## Exactness -/

/-- A collection that is made for an allocation has the references of the new object as further
roots. -/
theorem contains_allocate_iff (clean : heap.Clean) {object : Object}
    (due : heap.mustCollect object.size) (other : h ≠ (heap.allocate object roots).1) :
    (heap.allocate object roots).2.contains h ↔
      heap.Reach (roots ++ object.references) h := by
  have allocated := allocated_allocate clean object roots
  have room : heap.makeRoom object roots = heap.collect (roots ++ object.references) := if_pos due
  rw [allocated.fresh] at other
  have same : (heap.allocate object roots).2.cell? h =
      (heap.collect (roots ++ object.references)).cell? h := by
    rw [allocate, cell?_insert, insert_fst, size_cells_makeRoom clean, if_neg other, room]
  rw [← contains_collect_iff clean, contains, contains, same]

/-- After a collection exactly the live objects that the roots keep are live, each under its handle
with its object and its charge, and no mark is left. If an allocation collects, it keeps in the
same way what the roots and the new object keep, and puts the new object under a handle that no
live object has. -/
theorem collection_exact {config : Config} (arises : heap.Arises config) :
    (∀ roots h, ((heap.collect roots).contains h ↔ heap.contains h ∧ heap.Reach roots h) ∧
      ((heap.collect roots).contains h → (heap.collect roots).cell? h = heap.cell? h)) ∧
    (∀ roots, (heap.collect roots).Clean) ∧
    ∀ object roots, heap.mustCollect object.size →
      ∃ new after, heap.allocate object roots = (new, after) ∧
        ¬ heap.contains new ∧ after.cell? new = some ⟨object, object.size, false⟩ ∧
        (∀ h, h ≠ new →
          (after.contains h ↔ heap.contains h ∧ heap.Reach (roots ++ object.references) h) ∧
          (after.contains h → after.cell? h = heap.cell? h)) ∧
        after.Clean := by
  have clean := arises.clean
  refine ⟨fun roots h => ⟨?_, fun live => ?_⟩, clean.collect, fun object roots due => ?_⟩
  · rw [contains_collect_iff clean]
    exact ⟨fun reach => ⟨reach.live, reach⟩, And.right⟩
  · exact cell?_collect_of_reach clean ((contains_collect_iff clean).mp live)
  · have allocated := allocated_allocate clean object roots
    refine ⟨(heap.allocate object roots).1, (heap.allocate object roots).2, rfl, ?_,
      allocated.new, fun h other => ⟨?_, allocated.old h other⟩, allocated.clean⟩
    · rw [allocated.fresh]
      exact not_contains_next heap
    · rw [contains_allocate_iff clean due other]
      exact ⟨fun reach => ⟨reach.live, reach⟩, And.right⟩

/-- A heap that collects before every allocation. In it a captured variable holds itself, and a
bound method refers to the variable and to a handle that was never given out. -/
def knotted : Heap :=
  let heap := empty { diagnostics := { stressCollections := true } }
  let (loop, heap) := heap.allocate (.upvalue (.closed (.object ⟨0⟩))) []
  (heap.allocate (.bound (.object loop) ⟨7⟩) []).2

theorem collection_exact_knotted :
    knotted.Arises { diagnostics := { stressCollections := true } } ∧
    ((knotted.collect [⟨1⟩]).contains ⟨0⟩ ∧ ¬ (knotted.collect [⟨0⟩]).contains ⟨1⟩) ∧
    knotted.mustCollect (Object.upvalue (.opened 3)).size ∧
    ∃ new after, knotted.allocate (.upvalue (.opened 3)) [⟨0⟩] = (new, after) ∧
      after.contains new ∧ after.contains ⟨0⟩ ∧ ¬ after.contains ⟨1⟩ := by
  have arises : knotted.Arises { diagnostics := { stressCollections := true } } :=
    (Arises.empty.allocate _ _).allocate _ _
  have due : knotted.mustCollect (Object.upvalue (.opened 3)).size := by decide +kernel
  have variableLive : knotted.contains ⟨0⟩ := by decide +kernel
  have methodLive : knotted.contains ⟨1⟩ := by decide +kernel
  have method : (knotted.get? ⟨1⟩).map Object.references = some [⟨0⟩, ⟨7⟩] := by decide +kernel
  have captured : (knotted.get? ⟨0⟩).map Object.references = some [⟨0⟩] := by decide +kernel
  obtain ⟨object, found, refers⟩ := Option.map_eq_some_iff.mp method
  obtain ⟨object', found', refers'⟩ := Option.map_eq_some_iff.mp captured
  have kept : knotted.Reach [⟨1⟩] ⟨0⟩ :=
    .reference (.root (by simp) methodLive) found (by simp [refers]) variableLive
  have lost (h : Handle) (reach : knotted.Reach [⟨0⟩] h) : h = ⟨0⟩ := by
    induction reach with
    | root mem _ => simpa using mem
    | reference _ found mem _ ih =>
      subst ih
      obtain rfl := Option.some.inj (found.symm.trans found')
      simpa [refers'] using mem
  obtain ⟨exact, -, room⟩ := collection_exact arises
  obtain ⟨new, after, eq, fresh, placed, others, -⟩ := room (.upvalue (.opened 3)) [⟨0⟩] due
  refine ⟨arises, ⟨(exact _ _).1.mpr ⟨variableLive, kept⟩, fun live => ?_⟩, due, new, after, eq,
    contains_iff.mpr ⟨_, placed⟩, ?_, fun live => ?_⟩
  · have := lost _ ((exact _ _).1.mp live).2
    simp at this
  · refine (others ⟨0⟩ fun eq => fresh (eq ▸ variableLive)).1.mpr ⟨variableLive, ?_⟩
    exact .root (by simp) variableLive
  · have := ((others ⟨1⟩ fun eq => fresh (eq ▸ methodLive)).1.mp live).2
    simpa [Object.references] using lost _ this

end Heap

end ScriptMachine
