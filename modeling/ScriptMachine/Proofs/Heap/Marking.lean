/-
# Marking

What a collection keeps is said here without marks: an object is kept if it is
a live root, or if it is live and a kept object refers to it. Marking computes
exactly these objects, even if references run around in circles or lead to
freed objects.

The worklist is followed through two facts. Every marked object has its
references marked too, unless it is still gray; so nothing is left to find when
the gray list is empty. And the unmarked objects and the gray ones together
become fewer with every object that is blackened; so the gray list does become
empty, and the number of cells bounds the work.

## Main definitions

* `Heap.Reach` — what a set of roots keeps
* `Heap.Clean` — no collection is going on

## Main results

* `gray_trace` — tracing empties the gray list
* `isMarked_trace_iff` — tracing marks exactly what the roots keep
-/

import Mathlib.Tactic.Common
import ScriptMachine.Heap.Allocation

namespace ScriptMachine

/-- The cell without its mark. -/
def Cell.unmark (cell : Cell) : Cell := { cell with marked := false }

theorem Cell.unmark_eq_self {cell : Cell} (unmarked : cell.marked = false) :
    cell.unmark = cell := by
  cases cell; simp_all [unmark]

namespace Heap

variable {heap base : Heap} {roots : List Handle} {h k : Handle}

/-- The live objects that the roots keep: the roots themselves, and what a kept object refers
to. -/
inductive Reach (heap : Heap) (roots : List Handle) : Handle → Prop
  | root {h : Handle} (mem : h ∈ roots) (live : heap.contains h) : Reach heap roots h
  | reference {h k : Handle} {object : Object} (reach : Reach heap roots h)
      (found : heap.get? h = some object) (mem : k ∈ object.references)
      (live : heap.contains k) : Reach heap roots k

theorem Reach.live (reach : heap.Reach roots h) : heap.contains h := by
  cases reach with
  | root _ live => exact live
  | reference _ _ _ live => exact live

/-- More roots keep more. -/
theorem Reach.mono {more : List Handle} (sub : ∀ k ∈ roots, k ∈ more)
    (reach : heap.Reach roots h) : heap.Reach more h := by
  induction reach with
  | root mem live => exact .root (sub _ mem) live
  | reference _ found mem live ih => exact .reference ih found mem live

/-- No collection is going on: no object is marked, and none is gray. -/
structure Clean (heap : Heap) : Prop where
  gray : heap.gray = []
  unmarked : ∀ h cell, heap.cell? h = some cell → cell.marked = false

/-! ## Cells and objects -/

theorem contains_iff : heap.contains h ↔ ∃ cell, heap.cell? h = some cell := by
  simp [contains, Option.isSome_iff_exists]

theorem contains_iff_get? : heap.contains h ↔ ∃ object, heap.get? h = some object := by
  simp [contains, get?, Option.isSome_iff_exists]

theorem contains_of_get? {object : Object} (found : heap.get? h = some object) :
    heap.contains h := contains_iff_get?.mpr ⟨object, found⟩

theorem isMarked_iff : heap.isMarked h ↔ ∃ cell, heap.cell? h = some cell ∧ cell.marked := by
  cases found : heap.cell? h <;> simp [isMarked, found]

/-- Only handles that were given out are live. -/
theorem lt_size_of_contains (live : heap.contains h) : h.index < heap.cells.size := by
  obtain ⟨cell, found⟩ := contains_iff.mp live
  by_contra outside
  simp [cell?, Array.getElem?_eq_none (Nat.le_of_not_lt outside)] at found

/-! ## Recording changes nothing else -/

@[simp] theorem gray_record (event : HeapEvent) : (heap.record event).gray = heap.gray := by
  unfold record; split <;> rfl

@[simp] theorem interned_record (event : HeapEvent) :
    (heap.record event).interned = heap.interned := by
  unfold record; split <;> rfl

/-! ## Marking one object -/

theorem cell?_mark (heap : Heap) (h k : Handle) :
    (heap.mark h).cell? k =
      if k = h then (heap.cell? h).map ({ · with marked := true }) else heap.cell? k := by
  unfold mark
  split
  next none => split <;> simp_all
  next cell found =>
    split
    next marked =>
      by_cases eq : k = h
      · subst eq; cases cell; simp_all
      · simp [eq]
    next =>
      rw [cell?_modifyCell]
      by_cases eq : k = h <;> simp [eq, cell?]

/-- An object is marked afterwards if it was before, or if it is the one to mark. -/
theorem isMarked_mark_iff :
    (heap.mark h).isMarked k ↔ heap.isMarked k ∨ k = h ∧ heap.contains h := by
  simp only [isMarked_iff, cell?_mark, contains_iff]
  by_cases eq : k = h
  · subst eq; cases heap.cell? k <;> simp
  · simp [eq]

/-- An object turns gray when it is marked for the first time. -/
theorem gray_mark (heap : Heap) (h : Handle) :
    (heap.mark h).gray =
      if heap.contains h ∧ ¬ heap.isMarked h then h :: heap.gray else heap.gray := by
  unfold mark
  split
  next none => simp [contains, none]
  next cell found =>
    have live : heap.contains h := contains_iff.mpr ⟨cell, found⟩
    split
    next marked => simp [isMarked_iff, found, marked]
    next unmarked => simp [live, isMarked_iff, found, unmarked, modifyCell]

/-! ## The measure of the worklist -/

/-- The objects that are not marked and the gray objects, counted together. -/
def pending (heap : Heap) : Nat := heap.cells.countP isUnmarked + heap.gray.length

private theorem countP_modify {α : Type} {p : α → Bool} {f : α → α} {a : α} {xs : List α} {i : Nat}
    (found : xs[i]? = some a) (before : p a) (after : ¬ p (f a)) :
    (xs.modify i f).countP p + 1 = xs.countP p := by
  induction xs generalizing i with
  | nil => simp at found
  | cons x xs ih =>
    cases i with
    | zero =>
      obtain rfl : x = a := by simpa using found
      simp [before, after]
    | succ i =>
      have := ih (by simpa using found)
      simp only [List.modify_succ_cons, List.countP_cons]
      omega

/-- Marking turns an unmarked object into a gray one. -/
@[simp] theorem pending_mark (heap : Heap) (h : Handle) : (heap.mark h).pending = heap.pending := by
  unfold mark
  split
  next => rfl
  next cell found =>
    split
    next => rfl
    next unmarked =>
      have slot : heap.cells.toList[h.index]? = some (some cell) := by
        simpa [cell?, Option.join_eq_some_iff] using found
      have := countP_modify (p := isUnmarked) (f := Option.map ({ · with marked := true })) slot
        (by simpa [isUnmarked] using unmarked) (by simp [isUnmarked])
      simp only [pending, modifyCell, cells_record, gray_record, ← Array.countP_toList,
        Array.toList_modify, List.length_cons]
      omega

@[simp] theorem pending_markAll (heap : Heap) (hs : List Handle) :
    (heap.markAll hs).pending = heap.pending := by
  induction hs generalizing heap with
  | nil => rfl
  | cons h hs ih => exact (ih (heap.mark h)).trans (pending_mark heap h)

/-- Blackening an object of the gray list brings the measure down. -/
theorem pending_blacken {rest : List Handle} (gray : heap.gray = h :: rest) :
    (blacken { heap with gray := rest } h).pending + 1 = heap.pending := by
  unfold blacken
  split
  next => simp [pending, gray, Nat.add_assoc]
  next =>
    rw [pending_markAll]
    simp [pending, gray, Nat.add_assoc]

/-- Tracing with a large enough bound empties the gray list. -/
theorem gray_trace {bound : Nat} (enough : heap.pending ≤ bound) :
    (trace bound heap).gray = [] := by
  induction bound generalizing heap with
  | zero =>
    have : heap.gray.length = 0 := by unfold pending at enough; omega
    simpa [trace] using this
  | succ bound ih =>
    unfold trace
    split
    next gray => exact gray
    next h rest gray =>
      have := pending_blacken gray
      exact ih (by omega)

/-! ## What marking leaves alone -/

/-- The heap is `base` in the middle of a collection: marks, the gray list and the record of events
apart, they are the same. -/
structure Marking (base heap : Heap) : Prop where
  cell : ∀ h, (heap.cell? h).map Cell.unmark = base.cell? h
  cells_size : heap.cells.size = base.cells.size
  interned : heap.interned = base.interned
  bytes : heap.bytes = base.bytes
  growth : heap.growth = base.growth
  diagnostics : heap.diagnostics = base.diagnostics
  collections : heap.collections = base.collections

theorem Clean.marking (clean : base.Clean) : Marking base base where
  cell h := by
    cases found : base.cell? h with
    | none => rfl
    | some cell => simp [Cell.unmark_eq_self (clean.unmarked h cell found)]
  cells_size := rfl
  interned := rfl
  bytes := rfl
  growth := rfl
  diagnostics := rfl
  collections := rfl

namespace Marking

theorem get? (marking : Marking base heap) (h : Handle) : heap.get? h = base.get? h := by
  simp only [Heap.get?, ← marking.cell h, Option.map_map]
  rfl

theorem contains (marking : Marking base heap) (h : Handle) :
    heap.contains h = base.contains h := by simp [Heap.contains, ← marking.cell h]

theorem record (marking : Marking base heap) (event : HeapEvent) :
    Marking base (heap.record event) := by
  unfold Heap.record
  split
  · exact { marking with }
  · exact marking

theorem withGray (marking : Marking base heap) (gray : List Handle) :
    Marking base { heap with gray } := { marking with }

theorem mark (marking : Marking base heap) (h : Handle) : Marking base (heap.mark h) := by
  have cell (k : Handle) : ((heap.mark h).cell? k).map Cell.unmark = base.cell? k := by
    rw [← marking.cell k, cell?_mark]
    split
    next eq =>
      subst eq
      cases heap.cell? k <;> rfl
    next => rfl
  revert cell
  unfold Heap.mark
  split
  next => exact fun _ => marking
  next =>
    split
    next => exact fun _ => marking
    next unmarked =>
      intro cell
      have recorded := marking.record
      exact { (recorded _) with cell, cells_size := by simpa [modifyCell] using marking.cells_size }

theorem markAll (marking : Marking base heap) (hs : List Handle) :
    Marking base (heap.markAll hs) := by
  induction hs generalizing heap with
  | nil => exact marking
  | cons h hs ih => exact ih (marking.mark h)

theorem blacken (marking : Marking base heap) (h : Handle) : Marking base (heap.blacken h) := by
  unfold Heap.blacken
  split
  · exact marking
  · exact (marking.record _).markAll _

end Marking

/-! ## Marking several objects -/

theorem contains_mark (heap : Heap) (h k : Handle) :
    (heap.mark h).contains k = heap.contains k := by
  simp only [contains, cell?_mark]
  split
  next eq => subst eq; simp
  next => rfl

theorem isMarked_markAll_iff {hs : List Handle} :
    (heap.markAll hs).isMarked k ↔ heap.isMarked k ∨ k ∈ hs ∧ heap.contains k := by
  induction hs generalizing heap with
  | nil => simp [markAll]
  | cons h hs ih =>
    have step : heap.markAll (h :: hs) = (heap.mark h).markAll hs := rfl
    rw [step, ih, isMarked_mark_iff, contains_mark]
    by_cases eq : k = h
    · subst eq; simp; tauto
    · simp [eq]

/-- Marking makes gray what it marks for the first time. -/
theorem mem_gray_markAll_iff {hs : List Handle} :
    k ∈ (heap.markAll hs).gray ↔
      k ∈ heap.gray ∨ k ∈ hs ∧ heap.contains k ∧ ¬ heap.isMarked k := by
  induction hs generalizing heap with
  | nil => simp [markAll]
  | cons h hs ih =>
    have step : heap.markAll (h :: hs) = (heap.mark h).markAll hs := rfl
    rw [step, ih, isMarked_mark_iff, contains_mark, gray_mark]
    by_cases eq : k = h
    · subst eq
      cases heap.contains k <;> cases heap.isMarked k <;> simp
    · split <;> simp [eq]

theorem isMarked_record (event : HeapEvent) (h : Handle) :
    (heap.record event).isMarked h = heap.isMarked h := by simp [isMarked]

/-! ## The worklist invariant -/

/-- What holds between the steps of tracing. Only reachable objects are marked; the roots are marked
and so is what a marked object refers to, except for objects on the gray list, which wait for
this. -/
structure Tracing (base : Heap) (roots : List Handle) (heap : Heap) : Prop where
  marking : Marking base heap
  reach : ∀ h, heap.isMarked h → base.Reach roots h
  gray : ∀ h ∈ heap.gray, heap.isMarked h
  roots : ∀ h ∈ roots, base.contains h → heap.isMarked h
  closed : ∀ h object k, heap.isMarked h → h ∉ heap.gray → base.get? h = some object →
    k ∈ object.references → base.contains k → heap.isMarked k

namespace Tracing

/-- The invariant holds when the roots of a clean heap have been marked. -/
theorem start (clean : base.Clean) (roots : List Handle) (event : HeapEvent) :
    Tracing base roots ((base.record event).markAll roots) := by
  -- In a clean heap no object is marked or gray but those that the roots name.
  have none (h : Handle) : ¬ (base.record event).isMarked h := by
    rw [isMarked_record, isMarked_iff]
    rintro ⟨cell, found, marked⟩
    simp [clean.unmarked h cell found] at marked
  have live (h : Handle) : (base.record event).contains h = base.contains h := by simp [contains]
  have marked (h : Handle) : ((base.record event).markAll roots).isMarked h ↔
      h ∈ roots ∧ base.contains h := by
    simp [isMarked_markAll_iff, none, live]
  have gray (h : Handle) : h ∈ ((base.record event).markAll roots).gray ↔
      h ∈ roots ∧ base.contains h := by
    simp [mem_gray_markAll_iff, none, live, clean.gray]
  refine ⟨(clean.marking.record event).markAll roots, fun h reached => ?_, fun h mem => ?_,
    fun h mem live => (marked h).mpr ⟨mem, live⟩, fun h _ _ reached notGray => ?_⟩
  · obtain ⟨mem, live⟩ := (marked h).mp reached
    exact .root mem live
  · exact (marked h).mpr ((gray h).mp mem)
  · exact absurd ((gray h).mpr ((marked h).mp reached)) notGray

/-- Blackening the first gray object keeps the invariant. -/
theorem blacken {rest : List Handle} (tracing : Tracing base roots heap)
    (first : heap.gray = h :: rest) :
    Tracing base roots (Heap.blacken { heap with gray := rest } h) := by
  -- Gray objects are marked, and marked objects are live, so there is an object to scan.
  have firstMarked : heap.isMarked h := tracing.gray h (by simp [first])
  have firstLive : heap.contains h := by
    obtain ⟨cell, found, -⟩ := isMarked_iff.mp firstMarked
    exact contains_iff.mpr ⟨cell, found⟩
  obtain ⟨object, found⟩ := contains_iff_get?.mp firstLive
  have found' : base.get? h = some object := by rw [← tracing.marking.get?]; exact found
  let popped : Heap := { heap with gray := rest }
  have unfolded : Heap.blacken popped h =
      (popped.record (.blackened h object.kind)).markAll object.references := by
    have : popped.get? h = some object := found
    simp [Heap.blacken, this]
  -- Scanning marks the live objects that this one refers to, and makes gray those that were not
  -- marked before.
  have marked (k : Handle) : (Heap.blacken popped h).isMarked k ↔
      heap.isMarked k ∨ k ∈ object.references ∧ base.contains k := by
    rw [unfolded, isMarked_markAll_iff, isMarked_record, ← tracing.marking.contains]
    simp only [contains, cell?_record]
    rfl
  have gray (k : Handle) : k ∈ (Heap.blacken popped h).gray ↔
      k ∈ rest ∨ k ∈ object.references ∧ base.contains k ∧ ¬ heap.isMarked k := by
    rw [unfolded, mem_gray_markAll_iff, isMarked_record, ← tracing.marking.contains]
    simp only [contains, cell?_record, gray_record]
    rfl
  refine ⟨(tracing.marking.withGray rest).blacken h, fun k reached => ?_, fun k mem => ?_,
    fun k mem live => (marked k).mpr (.inl (tracing.roots k mem live)),
    fun k o target reached notGray foundK mem live => ?_⟩
  -- What is marked now is referred to by a marked object, which the roots keep.
  · rcases (marked k).mp reached with before | ⟨mem, live⟩
    · exact tracing.reach k before
    · exact .reference (tracing.reach h firstMarked) found' mem live
  · rcases (gray k).mp mem with mem | ⟨mem, live, -⟩
    · exact (marked k).mpr (.inl (tracing.gray k (by simp [first, mem])))
    · exact (marked k).mpr (.inr ⟨mem, live⟩)
  · -- A marked object off the new gray list is the one just blackened, or was off the old list.
    rw [marked]
    by_cases eq : k = h
    · subst eq
      obtain rfl : o = object := by simpa [foundK] using found'
      exact .inr ⟨mem, live⟩
    · rw [gray, not_or] at notGray
      have before : heap.isMarked k := by
        rcases (marked k).mp reached with before | ⟨mem, live⟩
        · exact before
        · by_contra unmarked
          exact notGray.2 ⟨mem, live, unmarked⟩
      exact .inl (tracing.closed k o target before (by simp [first, eq, notGray.1]) foundK mem live)

/-- Tracing keeps the invariant. -/
theorem trace (tracing : Tracing base roots heap) (bound : Nat) :
    Tracing base roots (heap.trace bound) := by
  induction bound generalizing heap with
  | zero => exact tracing
  | succ bound ih =>
    unfold Heap.trace
    split
    next => exact tracing
    next h rest first => exact ih (tracing.blacken first)

/-- When the gray list is empty, the marked objects are those that the roots keep. -/
theorem isMarked_iff (tracing : Tracing base roots heap) (done : heap.gray = []) :
    heap.isMarked h ↔ base.Reach roots h := by
  refine ⟨tracing.reach h, fun reach => ?_⟩
  induction reach with
  -- Along a path from a root, every object is marked as the one before it is no longer gray.
  | root mem live => exact tracing.roots _ mem live
  | reference _ found mem live ih =>
    exact tracing.closed _ _ _ ih (by simp [done]) found mem live

end Tracing

/-- Tracing a clean heap from its roots, with a bound as large as a collection takes it, marks
exactly what the roots keep. -/
theorem isMarked_trace_iff (clean : base.Clean) (roots : List Handle) (event : HeapEvent) :
    (trace base.cells.size ((base.record event).markAll roots)).isMarked h ↔
      base.Reach roots h := by
  have tracing := Tracing.start clean roots event
  refine (tracing.trace base.cells.size).isMarked_iff (gray_trace ?_)
  rw [pending_markAll]
  simp only [pending, cells_record, gray_record, clean.gray, List.length_nil, Nat.add_zero]
  exact Array.countP_le_size

end Heap

end ScriptMachine
