/-
# The worklist of a collection

Tracing takes objects from the gray list as long as there are any, and each of
them may put others on the list. Nothing counts the turns of this loop; it ends
because an object is put on the list only when it is marked, and is marked only
once.

The list is followed by what has been put on it and what has been taken from it
so far, the latest first. The objects put on it are the marked ones, each once;
they are those on the list and those taken from it. When the list is empty, what
was taken from it is what was put on it, and this is what the collection leaves.

## Main definitions

* `Heap.Drains` — the loop of tracing, without a bound
* `Heap.Visiting` — what has been on the gray list in the middle of a collection
* `Heap.VisitedOnce` — a collection visits what it leaves, each object once

## Main results

* `trace_eq_of_drains` — a bound that the loop keeps to changes nothing
* `Visiting.drains` — the loop ends
* `Clean.worklist_drained` — every collection visits what it leaves, each object once
-/

import ScriptMachine.Proofs.Heap.Accounting

namespace ScriptMachine

namespace HeapEvent

/-- The object that the event marks, and its kind. -/
def marked? : HeapEvent → Option (Handle × Kind)
  | marked h kind => some (h, kind)
  | _ => none

/-- The object that the event blackens, and its kind. -/
def blackened? : HeapEvent → Option (Handle × Kind)
  | blackened h kind => some (h, kind)
  | _ => none

end HeapEvent

namespace Heap

variable {heap base after last : Heap} {roots hs rest pushed blackened : List Handle} {h : Handle}

/-- The loop of tracing: as long as there is a gray object, the first one is taken from the list
and blackened. Told with it are the objects that were blackened, one in each turn, and those that
were put on the list meanwhile, the latest first. -/
inductive Drains : Heap → (blackened pushed : List Handle) → Heap → Prop
  | done {heap : Heap} (empty : heap.gray = []) : Drains heap [] [] heap
  | turn {heap after : Heap} {h : Handle} {rest new blackened pushed : List Handle}
    (first : heap.gray = h :: rest)
    (pushes : (blacken { heap with gray := rest } h).gray = new ++ rest)
    (drains : Drains (blacken { heap with gray := rest } h) blackened pushed after) :
    Drains heap (blackened ++ [h]) (pushed ++ new) after

/-- The heap in which a collection starts to trace. -/
def rooted (heap : Heap) (roots : List Handle) : Heap :=
  (heap.record .collectionBegan).markAll roots

/-- Objects with their kinds, as the log names them. -/
def named (heap : Heap) (hs : List Handle) : List (Handle × Kind) :=
  hs.filterMap fun h => (heap.get? h).map fun object => (h, object.kind)

/-- The live objects with their kinds. -/
def census (heap : Heap) : List (Handle × Kind) :=
  heap.live.map fun (h, cell) => (h, cell.object.kind)

/-- A collection from these roots, which leaves the heap `after`, puts each object that it leaves on
the gray list once, when it marks the roots or when it traces, and takes it from there once. -/
structure VisitedOnce (heap : Heap) (roots : List Handle) (after : Heap)
    (pushed blackened : List Handle) : Prop where
  /-- The loop ends, and what was on the list at its start was put there with the roots. -/
  drains : ∃ later, Drains (heap.rooted roots) blackened later (heap.traced roots) ∧
    pushed = later ++ (heap.rooted roots).gray
  /-- No bound that is large enough for the loop changes anything, and that of the collection is. -/
  unbounded : ∀ bound, blackened.length ≤ bound →
    trace bound (heap.rooted roots) = heap.traced roots
  bounded : blackened.length ≤ (heap.rooted roots).cells.size
  survivors : ∀ h, after.contains h ↔ heap.Reach roots h
  pushed_once : pushed.Nodup
  blackened_once : blackened.Nodup
  mem_pushed : ∀ h, h ∈ pushed ↔ after.contains h
  mem_blackened : ∀ h, h ∈ blackened ↔ after.contains h
  turns : blackened.length = after.size
  log : heap.diagnostics.logCollections → ∃ events, after.events = events ++ heap.events ∧
    (events.filterMap HeapEvent.marked?).Perm after.census ∧
    (events.filterMap HeapEvent.blackened?).Perm after.census

/-! ## The loop -/

/-- A bound that the loop keeps to changes nothing. -/
theorem trace_eq_of_drains {bound : Nat} (drains : Drains heap blackened pushed after)
    (enough : blackened.length ≤ bound) : trace bound heap = after := by
  induction drains generalizing bound with
  | done empty => cases bound <;> simp [trace, empty]
  | turn first _ _ ih =>
    rw [List.length_append, List.length_singleton] at enough
    obtain ⟨bound, rfl⟩ := Nat.exists_eq_add_one_of_ne_zero (Nat.ne_zero_of_lt enough)
    rw [trace]
    split
    next empty => simp [empty] at first
    next h rest same =>
      obtain ⟨rfl, rfl⟩ := List.cons.inj (first.symm.trans same)
      exact ih (Nat.le_of_succ_le_succ enough)

/-! ## What is recorded besides -/

/-- What was recorded on the way from one heap to the other neither marks nor blackens. -/
def Silent (heap after : Heap) : Prop := ∃ events, after.events = events ++ heap.events ∧
  ∀ e ∈ events, e.marked? = none ∧ e.blackened? = none

namespace Silent

theorem of_events (same : after.events = heap.events) : Silent heap after :=
  ⟨[], same, fun _ mem => by cases mem⟩

theorem trans (silent : Silent heap after) (silent' : Silent after last) : Silent heap last := by
  obtain ⟨events, eq, none⟩ := silent
  obtain ⟨events', eq', none'⟩ := silent'
  refine ⟨events' ++ events, by rw [eq', eq, List.append_assoc], fun e mem => ?_⟩
  exact (List.mem_append.mp mem).elim (none' e) (none e)

theorem record {event : HeapEvent} (marks : event.marked? = none)
    (blackens : event.blackened? = none) (heap : Heap) : Silent heap (heap.record event) := by
  unfold Heap.record
  split
  · exact ⟨[event], rfl, fun e mem => List.mem_singleton.mp mem ▸ ⟨marks, blackens⟩⟩
  · exact of_events rfl

theorem recordFreed (heap : Heap) : Silent heap heap.recordFreed := by
  suffices each : ∀ (dead : List (Handle × Cell)) (heap : Heap), Silent heap
      (dead.foldl (fun heap (h, cell) => heap.record (.freed h cell.object.kind)) heap) by
    unfold Heap.recordFreed
    split
    · exact each _ heap
    · exact of_events rfl
  intro dead
  induction dead with
  | nil => exact fun _ => of_events rfl
  | cons _ dead ih => exact fun heap => (record rfl rfl heap).trans (ih _)

/-- After tracing, a collection neither marks nor blackens. -/
theorem collect (clean : heap.Clean) (roots : List Handle) :
    Silent (heap.traced roots) (heap.collect roots) := by
  obtain ⟨_, _, _, after, -, events, eq⟩ := exists_collect_eq heap roots
  rw [eq]
  have purged : (heap.purged roots).events = (heap.traced roots).events := by
    rw [purged_eq clean]
    rfl
  exact (of_events purged).trans <| (recordFreed _).trans <| (of_events events).trans <|
    (record rfl rfl _).trans (record rfl rfl _)

theorem exists_events (silent : Silent heap after) : ∃ new, after.events = new ++ heap.events ∧
    new.filterMap HeapEvent.marked? = [] ∧ new.filterMap HeapEvent.blackened? = [] := by
  obtain ⟨new, eq, none⟩ := silent
  exact ⟨new, eq, List.filterMap_eq_nil_iff.mpr fun e mem => (none e mem).1,
    List.filterMap_eq_nil_iff.mpr fun e mem => (none e mem).2⟩

end Silent

/-! ## What has been on the list -/

/-- What holds in the middle of a collection: the marked objects are those that have been put on the
gray list, each once; they are on the list still, or have been blackened; and both are recorded. -/
structure Visiting (base heap : Heap) (pushed blackened : List Handle) : Prop where
  marking : Marking base heap
  marked : ∀ h, h ∈ pushed ↔ heap.isMarked h
  once : pushed.Nodup
  split : pushed.Perm (heap.gray ++ blackened)
  log : base.diagnostics.logCollections → ∃ events, heap.events = events ++ base.events ∧
    events.filterMap HeapEvent.marked? = base.named pushed ∧
    events.filterMap HeapEvent.blackened? = base.named blackened

theorem named_cons {object : Object} (found : heap.get? h = some object) (hs : List Handle) :
    heap.named (h :: hs) = (h, object.kind) :: heap.named hs := by
  simp [named, found]

/-- Nothing has been on the list when a collection begins. -/
theorem Clean.visiting (clean : base.Clean) : Visiting base base [] [] where
  marking := clean.marking
  marked h := by
    rw [isMarked_iff]
    refine ⟨fun mem => absurd mem List.not_mem_nil, ?_⟩
    rintro ⟨cell, found, marked⟩
    simp [clean.unmarked h cell found] at marked
  once := List.nodup_nil
  split := by rw [clean.gray]; exact .refl _
  log _ := ⟨[], rfl, rfl, rfl⟩

namespace Visiting

theorem record {event : HeapEvent} (visiting : Visiting base heap pushed blackened)
    (marks : event.marked? = none) (blackens : event.blackened? = none) :
    Visiting base (heap.record event) pushed blackened where
  marking := visiting.marking.record event
  marked h := by rw [isMarked_record]; exact visiting.marked h
  once := visiting.once
  split := by rw [gray_record]; exact visiting.split
  log logs := by
    obtain ⟨events, eq, marked, black⟩ := visiting.log logs
    obtain ⟨new, eq', unmarked, unblackened⟩ := (Silent.record marks blackens heap).exists_events
    refine ⟨new ++ events, by rw [eq', eq, List.append_assoc], ?_, ?_⟩
    · rw [List.filterMap_append, unmarked, marked, List.nil_append]
    · rw [List.filterMap_append, unblackened, black, List.nil_append]

/-- Marking a live object that is not marked puts it on the list. -/
theorem push (visiting : Visiting base heap pushed blackened) (live : heap.contains h)
    (unmarked : ¬ heap.isMarked h) : Visiting base (heap.mark h) (h :: pushed) blackened where
  marking := visiting.marking.mark h
  marked k := by
    rw [isMarked_mark_iff, List.mem_cons, visiting.marked]
    simp [live, or_comm]
  once := List.nodup_cons.mpr ⟨fun mem => unmarked ((visiting.marked h).mp mem), visiting.once⟩
  split := by
    rw [gray_mark, if_pos ⟨live, unmarked⟩]
    exact visiting.split.cons h
  log logs := by
    obtain ⟨events, eq, marked, black⟩ := visiting.log logs
    obtain ⟨cell, found⟩ := contains_iff.mp live
    have object : base.get? h = some cell.object := by
      rw [← visiting.marking.get?, get?, found, Option.map_some]
    have fresh : ¬ cell.marked := fun marked => unmarked (isMarked_iff.mpr ⟨cell, found, marked⟩)
    have recorded : (heap.mark h).events = .marked h cell.object.kind :: heap.events := by
      rw [visiting.marking.diagnostics.symm] at logs
      simp [Heap.mark, found, fresh, modifyCell, Heap.record, logs]
    refine ⟨.marked h cell.object.kind :: events, by rw [recorded, eq]; rfl, ?_, black⟩
    rw [named_cons object, ← marked]
    rfl

/-- Nothing is done for an object that is marked or that has been freed. -/
theorem mark_eq_self (idle : ¬ (heap.contains h ∧ ¬ heap.isMarked h)) : heap.mark h = heap := by
  unfold Heap.mark
  split
  next => rfl
  next cell found =>
    split
    next => rfl
    next unmarked =>
      refine absurd ⟨contains_iff.mpr ⟨cell, found⟩, fun marked => ?_⟩ idle
      obtain ⟨cell', found', marked⟩ := isMarked_iff.mp marked
      obtain rfl := Option.some.inj (found.symm.trans found')
      exact unmarked marked

/-- Marking objects puts some of them on top of the list. -/
theorem markAll (visiting : Visiting base heap pushed blackened) (hs : List Handle) :
    ∃ new, (heap.markAll hs).gray = new ++ heap.gray ∧
      Visiting base (heap.markAll hs) (new ++ pushed) blackened := by
  induction hs generalizing heap pushed with
  | nil => exact ⟨[], rfl, visiting⟩
  | cons h hs ih =>
    by_cases turns : heap.contains h ∧ ¬ heap.isMarked h
    -- What is marked later lies on top of this object.
    · obtain ⟨new, gray, visiting⟩ := ih (visiting.push turns.1 turns.2)
      rw [gray_mark, if_pos turns] at gray
      refine ⟨new ++ [h], ?_, ?_⟩
      · rw [List.append_assoc]
        exact gray
      · rw [List.append_assoc]
        exact visiting
    · have same : heap.markAll (h :: hs) = heap.markAll hs :=
        congrArg (Heap.markAll · hs) (mark_eq_self turns)
      rw [same]
      exact ih visiting

/-- Blackening the first gray object takes it from the list, and puts others there. -/
theorem blacken (visiting : Visiting base heap pushed blackened) (first : heap.gray = h :: rest) :
    ∃ new, (Heap.blacken { heap with gray := rest } h).gray = new ++ rest ∧
      Visiting base (Heap.blacken { heap with gray := rest } h) (new ++ pushed)
        (h :: blackened) := by
  -- Gray objects are marked, and marked objects are live, so there is an object to blacken.
  have marked : heap.isMarked h :=
    (visiting.marked h).mp (visiting.split.mem_iff.mpr (by simp [first]))
  obtain ⟨cell, found, -⟩ := isMarked_iff.mp marked
  have object : heap.get? h = some cell.object := by rw [get?, found, Option.map_some]
  let popped : Heap := { heap with gray := rest }
  have unfolded : Heap.blacken popped h =
      (popped.record (.blackened h cell.object.kind)).markAll cell.object.references := by
    have : popped.get? h = some cell.object := object
    simp [Heap.blacken, this]
  have taken : Visiting base (popped.record (.blackened h cell.object.kind)) pushed
      (h :: blackened) := by
    refine ⟨(visiting.marking.withGray rest).record _, fun k => ?_, visiting.once, ?_,
      fun logs => ?_⟩
    · rw [isMarked_record]
      exact visiting.marked k
    · rw [gray_record]
      refine visiting.split.trans ?_
      rw [first]
      exact List.perm_middle.symm
    · obtain ⟨events, eq, marked, black⟩ := visiting.log logs
      rw [visiting.marking.diagnostics.symm] at logs
      refine ⟨.blackened h cell.object.kind :: events, ?_, marked, ?_⟩
      · simp [Heap.record, popped, logs, eq]
      · rw [named_cons ((visiting.marking.get? h).symm.trans object), ← black]
        rfl
  obtain ⟨new, gray, visiting⟩ := taken.markAll cell.object.references
  rw [gray_record] at gray
  rw [unfolded]
  exact ⟨new, gray, visiting⟩

/-- The loop ends within any bound that there are at least as many turns as unmarked and gray
objects. -/
theorem drains {bound : Nat} (visiting : Visiting base heap pushed blackened)
    (enough : heap.pending ≤ bound) : ∃ later black,
      Drains heap black later (heap.trace bound) ∧
        Visiting base (heap.trace bound) (later ++ pushed) (black ++ blackened) := by
  -- By induction on the bound: each turn leaves fewer objects that are unmarked or gray.
  induction bound generalizing heap pushed blackened with
  | zero =>
    have empty : heap.gray = [] := by
      have := Nat.eq_zero_of_le_zero enough
      unfold pending at this
      exact List.length_eq_zero_iff.mp (by omega)
    exact ⟨[], [], .done empty, visiting⟩
  | succ bound ih =>
    unfold Heap.trace
    split
    next empty => exact ⟨[], [], .done empty, visiting⟩
    next h rest first =>
      obtain ⟨new, pushes, visiting⟩ := visiting.blacken first
      have fewer := pending_blacken first
      obtain ⟨later, black, drains, visiting⟩ := ih visiting (by omega)
      refine ⟨later ++ new, black ++ [h], .turn first pushes drains, ?_⟩
      rw [List.append_assoc, List.append_assoc]
      exact visiting

end Visiting

/-! ## What a collection leaves -/

theorem mem_named_iff {kind : Kind} :
    (h, kind) ∈ heap.named hs ↔
      h ∈ hs ∧ ∃ object, heap.get? h = some object ∧ object.kind = kind := by
  simp only [named, List.mem_filterMap, Option.map_eq_some_iff, Prod.mk.injEq]
  constructor
  · rintro ⟨_, mem, object, found, rfl, eq⟩
    exact ⟨mem, object, found, eq⟩
  · rintro ⟨mem, object, found, eq⟩
    exact ⟨h, mem, object, found, rfl, eq⟩

theorem mem_census_iff {kind : Kind} :
    (h, kind) ∈ heap.census ↔ ∃ object, heap.get? h = some object ∧ object.kind = kind := by
  simp only [census, List.mem_map, Prod.mk.injEq, Prod.exists, mem_live_iff, get?,
    Option.map_eq_some_iff]
  constructor
  · rintro ⟨_, cell, found, rfl, eq⟩
    exact ⟨_, ⟨cell, found, rfl⟩, eq⟩
  · rintro ⟨_, ⟨cell, found, rfl⟩, eq⟩
    exact ⟨h, cell, found, rfl, eq⟩

/-- No handle is live twice. -/
theorem nodup_live_handles (heap : Heap) : (heap.live.map (·.1)).Nodup := by
  refine (nodup_live heap).map_on ?_
  rintro ⟨h, cell⟩ mem ⟨_, cell'⟩ mem' rfl
  rw [mem_live_iff] at mem mem'
  rw [Option.some.inj (mem.symm.trans mem')]

theorem nodup_census (heap : Heap) : heap.census.Nodup :=
  .of_map (·.1) (by rw [census, List.map_map]; exact nodup_live_handles heap)

theorem nodup_named (once : hs.Nodup) : (heap.named hs).Nodup := by
  refine once.filterMap fun h k e found found' => ?_
  simp only [Option.mem_def, Option.map_eq_some_iff] at found found'
  obtain ⟨_, -, rfl⟩ := found
  obtain ⟨_, -, eq⟩ := found'
  exact (congrArg Prod.fst eq).symm

/-- What the roots keep are the objects that a collection leaves, with their kinds. -/
theorem named_perm_census (clean : heap.Clean) (once : hs.Nodup)
    (mem : ∀ h, h ∈ hs ↔ heap.Reach roots h) :
    (heap.named hs).Perm (heap.collect roots).census := by
  refine (List.perm_ext_iff_of_nodup (nodup_named once) (nodup_census _)).mpr fun ⟨h, kind⟩ => ?_
  rw [mem_named_iff, mem_census_iff, mem]
  simp only [get?_collect_iff clean]
  constructor
  · rintro ⟨reach, object, found, eq⟩
    exact ⟨object, ⟨found, reach⟩, eq⟩
  · rintro ⟨object, ⟨found, reach⟩, eq⟩
    exact ⟨reach, object, found, eq⟩

theorem size_eq_length_live (heap : Heap) : heap.size = heap.live.length := by
  have each (cells : List (Option Cell)) (n : Nat) : cells.countP Option.isSome =
      ((cells.zipIdx n).filterMap fun entry =>
        entry.1.map ((⟨entry.2⟩ : Handle), ·)).length := by
    induction cells generalizing n with
    | nil => rfl
    | cons first rest ih => cases first <;> simp [ih (n + 1)]
  rw [size, live, ← Array.countP_toList]
  exact each _ 0

/-- As many objects are live as there are handles of live objects. -/
theorem length_eq_size (once : hs.Nodup) (mem : ∀ h, h ∈ hs ↔ heap.contains h) :
    hs.length = heap.size := by
  have perm : hs.Perm (heap.live.map (·.1)) := by
    refine (List.perm_ext_iff_of_nodup once (nodup_live_handles heap)).mpr fun h => ?_
    rw [mem, contains_iff]
    simp [mem_live_iff]
  rw [perm.length_eq, List.length_map, size_eq_length_live]

theorem Clean.visitedOnce (clean : heap.Clean) (roots : List Handle) :
    ∃ pushed blackened, heap.VisitedOnce roots (heap.collect roots) pushed blackened := by
  have began : Visiting heap (heap.record .collectionBegan) [] [] :=
    clean.visiting.record rfl rfl
  obtain ⟨new, gray, visiting⟩ := began.markAll roots
  rw [gray_record, clean.gray] at gray
  -- Every cell counts once at most, as unmarked or as gray, so there are turns enough.
  have enough : (heap.rooted roots).pending ≤ heap.cells.size := by
    rw [rooted, pending_markAll]
    simp only [pending, cells_record, gray_record, clean.gray, List.length_nil, Nat.add_zero]
    exact Array.countP_le_size
  obtain ⟨later, black, drains, visiting⟩ : ∃ later black,
      Drains (heap.rooted roots) black later (heap.traced roots) ∧
        Visiting heap (heap.traced roots) (later ++ (new ++ [])) (black ++ []) :=
    visiting.drains enough
  simp only [List.append_nil] at gray visiting
  have gone : (heap.traced roots).gray = [] := gray_trace enough
  -- The list is empty, so that all that was put on it has been blackened.
  have split : (later ++ new).Perm black := by simpa [gone] using visiting.split
  have reach (h : Handle) : h ∈ later ++ new ↔ heap.Reach roots h :=
    (visiting.marked h).trans (clean.isMarked_traced_iff roots h)
  have left (h : Handle) : h ∈ later ++ new ↔ (heap.collect roots).contains h :=
    (reach h).trans (contains_collect_iff clean).symm
  have once : black.Nodup := split.nodup_iff.mp visiting.once
  have turns : black.length = (heap.collect roots).size :=
    length_eq_size once fun h => split.mem_iff.symm.trans (left h)
  refine ⟨later ++ new, black, ⟨later, drains, by rw [rooted, gray]⟩,
    fun bound le => trace_eq_of_drains drains le, ?_, fun h => contains_collect_iff clean,
    visiting.once, once, left, fun h => split.mem_iff.symm.trans (left h), turns, fun logs => ?_⟩
  · rw [turns, rooted, ((clean.marking.record _).markAll roots).cells_size,
      ← size_cells_collect clean roots]
    exact Array.countP_le_size
  · obtain ⟨events, eq, marks, blackens⟩ := visiting.log logs
    obtain ⟨others, eq', unmarked, unblackened⟩ := (Silent.collect clean roots).exists_events
    refine ⟨others ++ events, ?_, ?_, ?_⟩
    · rw [eq', List.append_assoc]
      exact congrArg _ eq
    · rw [List.filterMap_append, unmarked, marks, List.nil_append]
      exact named_perm_census clean visiting.once reach
    · rw [List.filterMap_append, unblackened, blackens, List.nil_append]
      exact named_perm_census clean once fun h => split.mem_iff.symm.trans (reach h)

/-- Tracing ends, whatever refers to whatever in the heap and whatever the roots are. Over a whole
collection each object that the roots keep is put on the gray list once and blackened once, and no
other object is; so the loop takes as many turns as there are objects left, and a log of the
collection names these as marked and again as blackened. If a collection is made for an allocation,
the references of the new object are among the roots. -/
theorem Clean.worklist_drained (clean : heap.Clean) :
    (∀ roots, ∃ pushed blackened,
      heap.VisitedOnce roots (heap.collect roots) pushed blackened) ∧
    ∀ object roots, heap.mustCollect object.size → ∃ pushed blackened,
      heap.VisitedOnce (roots ++ object.references) (heap.makeRoom object roots) pushed
        blackened := by
  refine ⟨clean.visitedOnce, fun object roots due => ?_⟩
  rw [Heap.makeRoom, if_pos due]
  exact clean.visitedOnce _

/-- A heap that logs its collections, of which there is one before every allocation. A captured
variable holds itself, and a bound method is its own method; a closure shares both, and refers to a
handle that was never given out. Nothing refers to the last object. -/
def tangled : Heap :=
  let heap := empty { diagnostics := { stressCollections := true, logCollections := true } }
  let (captured, heap) := heap.allocate (.upvalue (.closed (.object ⟨0⟩))) []
  let (method, heap) := heap.allocate (.bound (.object captured) ⟨1⟩) []
  let (closure, heap) := heap.allocate (.closure method #[captured, method, ⟨9⟩] 3) []
  (heap.allocate (.upvalue (.opened 0)) [closure]).2

theorem worklist_drained_tangled :
    tangled.Clean ∧
    (∃ pushed blackened,
      tangled.VisitedOnce [⟨2⟩, ⟨7⟩, ⟨2⟩] (tangled.collect [⟨2⟩, ⟨7⟩, ⟨2⟩]) pushed blackened ∧
        blackened.length = 3) ∧
    tangled.mustCollect (Object.upvalue (.closed (.object ⟨0⟩))).size ∧
    ∃ pushed blackened, tangled.VisitedOnce [⟨3⟩, ⟨0⟩]
      (tangled.makeRoom (.upvalue (.closed (.object ⟨0⟩))) [⟨3⟩]) pushed blackened ∧
        blackened.length = 2 := by
  have clean : tangled.Clean :=
    ((((clean_empty _).allocate _ _).allocate _ _).allocate _ _).allocate _ _
  have due : tangled.mustCollect (Object.upvalue (.closed (.object ⟨0⟩))).size := by
    decide +kernel
  obtain ⟨collected, allocated⟩ := clean.worklist_drained
  obtain ⟨pushed, blackened, once⟩ := collected [⟨2⟩, ⟨7⟩, ⟨2⟩]
  obtain ⟨pushed', blackened', once'⟩ := allocated _ [⟨3⟩] due
  exact ⟨clean, ⟨pushed, blackened, once, once.turns.trans (by decide +kernel)⟩, due,
    pushed', blackened', once', once'.turns.trans (by decide +kernel)⟩

end Heap

end ScriptMachine
