/-
# Sound machines

Besides its heap, a machine holds on to handles itself: on the stack, in
frames, in the list of open captured variables, among the globals and as the
name of initializers. In a sound machine they stand for what they should. The
handles in frames and in the list, and those of the keys, are live whatever
comes in from outside; for the values it depends on what the outside promises.

An intact machine lists its open captured variables in order: those and only
those that are open, each with its slot, the highest slot first. In between,
when a captured variable has just been allocated, a machine is sound but not
intact.

## Main definitions

* `Machine.Sound`, `Machine.Intact` — what the machine holds is as it should be

## Main results

* `Sound.allocate`, `Intact.allocate`, `Intact.capture` — objects may be put into the heap
* `Intact.closeFrom`, `Intact.get?_closeFrom` — closing captured variables
* `intact_start` — a new machine is intact
-/

import Mathlib.Data.List.TakeDrop
import ScriptMachine.Machine.Run
import ScriptMachine.Proofs.Heap.Soundness

namespace ScriptMachine

open Heap

namespace Machine

variable {c : Custody} {m : Machine} {heap : Heap} {object : Object} {h k : Handle} {v : Value}
  {slot : Nat}

/-- What the machine holds is sound. -/
structure Sound (c : Custody) (m : Machine) : Prop where
  heap : m.heap.Sound c
  stack : ∀ v ∈ m.stack, v.Held c m.heap
  closures : ∀ f ∈ m.frames, m.heap.kind? f.closure = some .closure
  functions : ∀ f ∈ m.frames, m.heap.kind? f.function = some .function
  captured : ∀ e ∈ m.openUpvalues, m.heap.kind? e.upvalue = some .upvalue
  globals : m.globals.Sound c m.heap
  initKey : m.heap.key? m.initKey.handle = some m.initKey

/-- The machine is sound, and its open captured variables are listed by their slots, the highest
one first. -/
structure Intact (c : Custody) (m : Machine) : Prop extends Sound c m where
  sorted : m.openUpvalues.Pairwise fun e e' => e'.slot < e.slot
  listed : ∀ e ∈ m.openUpvalues, m.heap.upvalue? e.upvalue = some (.opened e.slot)
  complete : ∀ h slot, m.heap.upvalue? h = some (.opened slot) → ⟨slot, h⟩ ∈ m.openUpvalues

/-! ## Roots -/

theorem mem_roots_stack (mem : v ∈ m.stack) (eq : v.handle? = some h) : h ∈ m.roots := by
  simp only [roots, List.mem_append, List.mem_filterMap]
  exact .inl (.inl (.inl (.inl ⟨v, Array.mem_toList_iff.mpr mem, eq⟩)))

theorem mem_roots_closure {f : Frame} (mem : f ∈ m.frames) : f.closure ∈ m.roots := by
  simp only [roots, List.mem_append, List.mem_flatMap]
  exact .inl (.inl (.inl (.inr ⟨f, mem, List.mem_cons_self⟩)))

theorem mem_roots_function {f : Frame} (mem : f ∈ m.frames) : f.function ∈ m.roots := by
  simp only [roots, List.mem_append, List.mem_flatMap]
  exact .inl (.inl (.inl (.inr ⟨f, mem, List.mem_cons_of_mem _ List.mem_cons_self⟩)))

theorem mem_roots_upvalue {e : OpenUpvalue} (mem : e ∈ m.openUpvalues) : e.upvalue ∈ m.roots := by
  simp only [roots, List.mem_append, List.mem_map]
  exact .inl (.inl (.inr ⟨e, mem, rfl⟩))

theorem mem_roots_globals (mem : h ∈ Object.tableReferences m.globals) : h ∈ m.roots := by
  simp only [roots, List.mem_append]
  exact .inl (.inr mem)

theorem mem_roots_initKey (m : Machine) : m.initKey.handle ∈ m.roots := by simp [roots]

/-! ## Replacing a part of the machine -/

/-- The heap may be replaced by one that keeps what the machine holds. -/
theorem Sound.withHeap (sound : m.Sound c) (sound' : heap.Sound c)
    (grown : m.heap.cells.size ≤ heap.cells.size)
    (keeps : ∀ k ∈ m.roots, m.heap.contains k → m.heap.Keeps heap k) :
    Sound c { m with heap } := by
  have kind {k : Handle} {kind : Kind} (mem : k ∈ m.roots) (found : m.heap.kind? k = some kind) :
      heap.kind? k = some kind := (keeps k mem (contains_of_kind? found)).kind.trans found
  refine ⟨sound', ?_, ?_, ?_, ?_, ?_, ?_⟩
  · intro v mem
    exact (sound.stack v mem).transfer grown fun k eq => keeps k (mem_roots_stack mem eq)
  · intro f mem
    exact kind (mem_roots_closure mem) (sound.closures f mem)
  · intro f mem
    exact kind (mem_roots_function mem) (sound.functions f mem)
  · intro e mem
    exact kind (mem_roots_upvalue mem) (sound.captured e mem)
  · exact sound.globals.transfer grown fun k mem => keeps k (mem_roots_globals mem)
  · have live := contains_of_kind? (kind?_of_key? sound.initKey)
    exact (keeps _ (mem_roots_initKey m) live).key?.trans sound.initKey

/-- The heap may be replaced if the same captured variables stay open, too. -/
theorem Intact.withHeap (intact : m.Intact c) (sound' : heap.Sound c)
    (grown : m.heap.cells.size ≤ heap.cells.size)
    (keeps : ∀ k ∈ m.roots, m.heap.contains k → m.heap.Keeps heap k)
    (opened : ∀ h slot, heap.upvalue? h = some (.opened slot) ↔
      m.heap.upvalue? h = some (.opened slot)) :
    Intact c { m with heap } where
  toSound := intact.toSound.withHeap sound' grown keeps
  sorted := intact.sorted
  listed e mem := (opened _ _).mpr (intact.listed e mem)
  complete h slot found := intact.complete h slot ((opened h slot).mp found)

theorem Intact.withStack {stack : Array Value} (intact : m.Intact c)
    (held : ∀ v ∈ stack, v.Held c m.heap) : Intact c { m with stack } :=
  { intact with stack := held }

theorem Intact.withFrames {frames : List Frame} (intact : m.Intact c)
    (closures : ∀ f ∈ frames, m.heap.kind? f.closure = some .closure)
    (functions : ∀ f ∈ frames, m.heap.kind? f.function = some .function) :
    Intact c { m with frames } := { intact with closures, functions }

/-- A function may be entered. -/
theorem Intact.pushFrame {f : Frame} (intact : m.Intact c)
    (closure : m.heap.kind? f.closure = some .closure)
    (function : m.heap.kind? f.function = some .function) :
    Intact c { m with frames := f :: m.frames } := by
  apply intact.withFrames
  · intro f' mem
    rcases List.mem_cons.mp mem with rfl | mem
    · exact closure
    · exact intact.closures f' mem
  · intro f' mem
    rcases List.mem_cons.mp mem with rfl | mem
    · exact function
    · exact intact.functions f' mem

/-- The innermost function may be left. -/
theorem Intact.popFrame (intact : m.Intact c) : Intact c { m with frames := m.frames.tail } :=
  intact.withFrames (fun f mem => intact.closures f (List.mem_of_mem_tail mem))
    fun f mem => intact.functions f (List.mem_of_mem_tail mem)

theorem Intact.withGlobals {globals : Table} (intact : m.Intact c)
    (sound : globals.Sound c m.heap) : Intact c { m with globals } :=
  { intact with globals := sound }

theorem Intact.withSink (intact : m.Intact c) (sink : Sink) : Intact c { m with sink } :=
  { intact with }

theorem Intact.withEvents (intact : m.Intact c) (events : List ExecutionEvent) :
    Intact c { m with events } := { intact with }

theorem Intact.withUptime (intact : m.Intact c) (uptime : Number) : Intact c { m with uptime } :=
  { intact with }

/-! ## Putting objects into the heap -/

variable {extra : List Handle}

theorem allocate_eq (m : Machine) (object : Object) (extra : List Handle) :
    m.allocate object extra = ((m.heap.allocate object (m.roots ++ extra)).1,
      { m with heap := (m.heap.allocate object (m.roots ++ extra)).2 }) := rfl

/-- What the machine holds is kept when a new object takes its place in the heap. -/
theorem keeps_of_allocated {after : Heap}
    (allocated : m.heap.Allocated object (m.roots ++ extra) h after) (mem : k ∈ m.roots)
    (live : m.heap.contains k) : m.heap.Keeps after k :=
  allocated.keeps (.root (List.mem_append_left _ (List.mem_append_left _ mem)) live)

theorem Sound.allocated {after : Heap} (sound : m.Sound c)
    (allocated : m.heap.Allocated object (m.roots ++ extra) h after) (sound' : after.Sound c) :
    Sound c { m with heap := after } :=
  sound.withHeap sound' allocated.grown fun _ mem live => keeps_of_allocated allocated mem live

/-- Open captured variables are not affected by an object that is none. -/
theorem Intact.allocated {after : Heap} (intact : m.Intact c)
    (allocated : m.heap.Allocated object (m.roots ++ extra) h after) (sound' : after.Sound c)
    (other : ∀ slot, object ≠ .upvalue (.opened slot)) : Intact c { m with heap := after } := by
  refine intact.withHeap sound' allocated.grown
    (fun _ mem live => keeps_of_allocated allocated mem live)
    fun k slot => ⟨fun found => ?_, fun found => ?_⟩
  · have found' := get?_of_upvalue? found
    -- An open captured variable is not the new object, so it was there before.
    have ne : k ≠ h := by
      rintro rfl
      rw [allocated.get?] at found'
      exact other slot (Option.some.inj found')
    rw [upvalue?, allocated.get?_old ne found']
  -- The machine lists it, so it is a root and the allocation has not freed it.
  · have mem := mem_roots_upvalue (intact.complete k slot found)
    have live := contains_of_get? (get?_of_upvalue? found)
    have reach : m.heap.Reach (m.roots ++ extra ++ object.references) k :=
      .root (List.mem_append_left _ (List.mem_append_left _ mem)) live
    rw [upvalue?, allocated.get?_kept reach, ← upvalue?, found]

theorem Sound.allocate (sound : m.Sound c) (extra : List Handle) (other : object.kind ≠ .string)
    (fits : object.Sound c m.heap ⟨m.heap.cells.size⟩) : (m.allocate object extra).2.Sound c :=
  sound.allocated (allocated_allocate sound.heap.clean object (m.roots ++ extra))
    (sound.heap.allocate _ other fits)

theorem Intact.allocate (intact : m.Intact c) (extra : List Handle) (other : object.kind ≠ .string)
    (closed : ∀ slot, object ≠ .upvalue (.opened slot))
    (fits : object.Sound c m.heap ⟨m.heap.cells.size⟩) : (m.allocate object extra).2.Intact c :=
  intact.allocated (allocated_allocate intact.heap.clean object (m.roots ++ extra))
    (intact.heap.allocate _ other fits) closed

theorem intern_eq (m : Machine) (text : String) (extra : List Handle) :
    m.intern text extra = ((m.heap.intern text (m.roots ++ extra)).1,
      { m with heap := (m.heap.intern text (m.roots ++ extra)).2 }) := rfl

theorem Intact.intern (intact : m.Intact c) (text : String) (extra : List Handle) :
    (m.intern text extra).2.Intact c := by
  have sound' := intact.heap.intern text (m.roots ++ extra)
  rw [intern_eq]
  -- Either nothing happens, or a string is allocated.
  rcases interned_intern intact.heap.canonical intact.heap.clean text (m.roots ++ extra) with
    ⟨-, same⟩ | ⟨-, allocated⟩
  · rw [same]
    exact intact
  · exact intact.allocated allocated sound' nofun

theorem Intact.collect (intact : m.Intact c) : m.collect.Intact c := by
  have clean := intact.heap.clean
  have kept {k : Handle} (mem : k ∈ m.roots) (live : m.heap.contains k) :
      (m.heap.collect m.roots).cell? k = m.heap.cell? k :=
    cell?_collect_of_reach clean (.root mem live)
  refine intact.withHeap (intact.heap.collect m.roots) (size_cells_collect clean _).ge
    (fun k mem live => .of_cell? (kept mem live)) fun k slot => ⟨fun found => ?_, fun found => ?_⟩
  · have found' := (get?_collect_iff clean).mp (get?_of_upvalue? found)
    rw [upvalue?, found'.1]
  · have mem := mem_roots_upvalue (intact.complete k slot found)
    have live := contains_of_get? (get?_of_upvalue? found)
    rw [upvalue?, Heap.get?, kept mem live, ← Heap.get?, ← upvalue?, found]

/-! ## Changing an object -/

/-- An object may be changed if it is no open captured variable, before or after. -/
theorem Intact.modified {f : Object → Object} (intact : m.Intact c)
    (found : m.heap.get? h = some object) (other : object.kind ≠ .string)
    (kind : (f object).kind = object.kind) (before : ∀ slot, object ≠ .upvalue (.opened slot))
    (after : ∀ slot, f object ≠ .upvalue (.opened slot)) (sound' : (m.heap.modify h f).Sound c) :
    Intact c { m with heap := m.heap.modify h f } := by
  apply intact.withHeap sound' (size_cells_modify m.heap h f).ge
    (fun k _ _ => keeps_modify found other kind k)
  intro k slot
  simp only [upvalue?_eq_some_iff, get?_modify]
  by_cases eq : k = h
  · subst eq
    rw [if_pos rfl, found, Option.map_some]
    exact ⟨fun opened => absurd (Option.some.inj opened) (after slot),
      fun opened => absurd (Option.some.inj opened) (before slot)⟩
  · rw [if_neg eq]

theorem Intact.recharged (intact : m.Intact c) (h : Handle) :
    Intact c { m with heap := m.heap.recharge h } := by
  apply intact.withHeap (intact.heap.recharge h) (size_cells_recharge m.heap h).ge
    (fun k _ _ => keeps_recharge m.heap h k)
  intro k slot
  rw [upvalue?, get?_recharge, ← upvalue?]

theorem Intact.setFields {owner : Handle} {old fields : Table} (intact : m.Intact c)
    (found : m.heap.get? h = some (.inst owner old)) (sound : fields.Sound c m.heap) :
    Intact c { m with heap := m.heap.setFields h fields } :=
  intact.modified found nofun rfl nofun nofun (intact.heap.setFields found sound)

theorem Intact.setMethods {name : Handle} {old methods : Table} (intact : m.Intact c)
    (found : m.heap.get? h = some (.cls name old)) (sound : methods.Sound c m.heap) :
    Intact c { m with heap := m.heap.setMethods h methods } :=
  intact.modified found nofun rfl nofun nofun (intact.heap.setMethods found sound)

theorem Intact.pushCaptured {f u : Handle} {upvalues : Array Handle} {reserved : Nat}
    (intact : m.Intact c) (found : m.heap.get? h = some (.closure f upvalues reserved))
    (kind : m.heap.kind? u = some .upvalue) :
    Intact c { m with heap := m.heap.pushCaptured h u } :=
  intact.modified found nofun rfl nofun nofun (intact.heap.pushCaptured found kind)

theorem Intact.setClosed {old : Value} (intact : m.Intact c)
    (found : m.heap.get? h = some (.upvalue (.closed old))) (held : v.Held c m.heap) :
    Intact c { m with heap := m.heap.setUpvalue h (.closed v) } :=
  intact.modified found nofun rfl nofun nofun (intact.heap.setUpvalue found held)

/-! ## Capturing a slot -/

theorem mem_insertOpen_iff {entry e : OpenUpvalue} {entries : List OpenUpvalue} :
    e ∈ insertOpen entry entries ↔ e = entry ∨ e ∈ entries := by
  induction entries with
  | nil => simp [insertOpen]
  | cons first rest ih =>
    unfold insertOpen
    split
    · exact List.mem_cons
    · rw [List.mem_cons, ih, List.mem_cons]
      exact or_left_comm

theorem sorted_insertOpen {entry : OpenUpvalue} {entries : List OpenUpvalue}
    (sorted : entries.Pairwise fun e e' => e'.slot < e.slot)
    (new : ∀ e ∈ entries, e.slot ≠ entry.slot) :
    (insertOpen entry entries).Pairwise fun e e' => e'.slot < e.slot := by
  induction entries with
  | nil => exact List.pairwise_singleton _ _
  | cons first rest ih =>
    have here := new first List.mem_cons_self
    obtain ⟨above, sorted'⟩ := List.pairwise_cons.mp sorted
    unfold insertOpen
    split
    next below =>
      refine List.pairwise_cons.mpr ⟨fun e mem => ?_, sorted⟩
      rcases List.mem_cons.mp mem with rfl | mem
      · exact below
      · exact Nat.lt_trans (above e mem) below
    next notBelow =>
      -- The entry comes later, and below the first one.
      refine List.pairwise_cons.mpr ⟨fun e mem => ?_, ih sorted' fun e mem =>
        new e (List.mem_cons_of_mem _ mem)⟩
      rcases mem_insertOpen_iff.mp mem with rfl | mem
      · omega
      · exact above e mem

theorem mem_of_openUpvalue? (found : m.openUpvalue? slot = some h) :
    ⟨slot, h⟩ ∈ m.openUpvalues := by
  obtain ⟨e, first, rfl⟩ := Option.map_eq_some_iff.mp found
  obtain rfl : e.slot = slot := by simpa using List.find?_some first
  exact List.mem_of_find?_eq_some first

theorem slot_ne_of_openUpvalue? (none : m.openUpvalue? slot = none) :
    ∀ e ∈ m.openUpvalues, e.slot ≠ slot := by
  intro e mem
  have := List.find?_eq_none.mp (Option.map_eq_none_iff.mp none) e mem
  simpa using this

/-- A captured variable that has just been allocated takes its place in the list. -/
theorem Intact.capture (intact : m.Intact c) (new : m.openUpvalue? slot = none) :
    Intact c { (m.allocate (.upvalue (.opened slot)) []).2 with
      openUpvalues := insertOpen ⟨slot, (m.allocate (.upvalue (.opened slot)) []).1⟩
        m.openUpvalues } := by
  have allocated := allocated_allocate intact.heap.clean (.upvalue (.opened slot)) (m.roots ++ [])
  have sound : Sound c (m.allocate (.upvalue (.opened slot)) []).2 :=
    intact.toSound.allocate [] nofun trivial
  rw [allocate_eq] at sound ⊢
  generalize (m.heap.allocate (.upvalue (.opened slot)) (m.roots ++ [])).1 = h at allocated sound
  generalize (m.heap.allocate (.upvalue (.opened slot)) (m.roots ++ [])).2 = after
    at allocated sound
  have found : after.upvalue? h = some (.opened slot) := by rw [upvalue?, allocated.get?]
  -- The new entry is listed under its slot, and the older ones have outlived the allocation, as
  -- the machine lists them.
  refine { sound with captured := ?_, sorted := ?_, listed := ?_, complete := ?_ }
  · intro e mem
    rcases mem_insertOpen_iff.mp mem with rfl | mem
    · exact kind?_of_get? allocated.get?
    · exact sound.captured e mem
  · exact sorted_insertOpen intact.sorted (slot_ne_of_openUpvalue? new)
  · intro e mem
    rcases mem_insertOpen_iff.mp mem with rfl | mem
    · exact found
    · have before := intact.listed e mem
      have live := contains_of_get? (get?_of_upvalue? before)
      have reach : m.heap.Reach (m.roots ++ [] ++ Object.references (.upvalue (.opened slot)))
          e.upvalue :=
        .root (List.mem_append_left _ (List.mem_append_left _ (mem_roots_upvalue mem))) live
      rw [upvalue?, allocated.get?_kept reach, ← upvalue?, before]
  · intro k slot' open'
    by_cases eq : k = h
    · subst eq
      obtain rfl : slot = slot' := by simpa [found] using open'
      exact mem_insertOpen_iff.mpr (.inl rfl)
    -- Any other open variable was open before, so it was listed.
    · refine mem_insertOpen_iff.mpr (.inr (intact.complete k slot' ?_))
      rw [upvalue?, allocated.get?_old eq (get?_of_upvalue? open')]

/-! ## Closing captured variables -/

variable {stack : Array Value} {entries : List OpenUpvalue}

theorem closeOne_eq {e : OpenUpvalue} (live : heap.kind? e.upvalue = some .upvalue) :
    closeOne stack heap e =
      heap.setUpvalue e.upvalue (.closed (stack[e.slot]?.getD .nil)) := by
  obtain ⟨u, found, -⟩ := upvalue?_of_kind? live
  simp only [closeOne, found]

theorem held_getD (held : ∀ v ∈ stack, v.Held c heap) (slot : Nat) :
    (stack[slot]?.getD .nil).Held c heap := by
  cases found : stack[slot]? with
  | none => exact fun h eq => by cases eq
  | some v => exact held v (Array.mem_of_getElem? found)

/-- Closing captured variables leaves a sound heap, in which every object is of its kind. -/
theorem sound_closeAll (sound : heap.Sound c) (held : ∀ v ∈ stack, v.Held c heap)
    (live : ∀ e ∈ entries, heap.kind? e.upvalue = some .upvalue) :
    (entries.foldl (closeOne stack) heap).Sound c ∧
      (entries.foldl (closeOne stack) heap).cells.size = heap.cells.size ∧
      ∀ k, heap.Keeps (entries.foldl (closeOne stack) heap) k := by
  induction entries generalizing heap with
  | nil => exact ⟨sound, rfl, fun k => .refl heap k⟩
  | cons e rest ih =>
    have here := live e List.mem_cons_self
    obtain ⟨u, -, found⟩ := upvalue?_of_kind? here
    rw [List.foldl_cons, closeOne_eq here]
    have keeps := keeps_setUpvalue found (.closed (stack[e.slot]?.getD .nil))
    have size := size_cells_modify heap e.upvalue fun _ =>
      .upvalue (.closed (stack[e.slot]?.getD .nil))
    have fits : (Object.upvalue (.closed (stack[e.slot]?.getD .nil))).Sound c heap e.upvalue :=
      held_getD held e.slot
    -- The rest is closed in a heap in which the same objects are live, as no object has changed
    -- its kind.
    obtain ⟨sound', size', keeps'⟩ := ih (sound.setUpvalue found fits)
      (fun v mem => (held v mem).transfer size.ge fun k _ _ => keeps k)
      (fun e' mem => (keeps _).kind.trans (live e' (List.mem_cons_of_mem _ mem)))
    exact ⟨sound', size'.trans size, fun k => (keeps k).trans (keeps' k)⟩

/-- Closing captured variables puts the values of their slots into them, and changes nothing
else. -/
theorem get?_closeAll (stack : Array Value)
    (live : ∀ e ∈ entries, heap.kind? e.upvalue = some .upvalue)
    (distinct : entries.Pairwise fun e e' => e.upvalue ≠ e'.upvalue) :
    (∀ e ∈ entries, (entries.foldl (closeOne stack) heap).get? e.upvalue =
        some (.upvalue (.closed (stack[e.slot]?.getD .nil)))) ∧
      ∀ k, (∀ e ∈ entries, e.upvalue ≠ k) →
        (entries.foldl (closeOne stack) heap).get? k = heap.get? k := by
  induction entries generalizing heap with
  | nil => exact ⟨nofun, fun _ _ => rfl⟩
  | cons e rest ih =>
    have here := live e List.mem_cons_self
    obtain ⟨u, -, found⟩ := upvalue?_of_kind? here
    obtain ⟨apart, distinct'⟩ := List.pairwise_cons.mp distinct
    have keeps := keeps_setUpvalue found (.closed (stack[e.slot]?.getD .nil))
    rw [List.foldl_cons, closeOne_eq here]
    obtain ⟨closed, others⟩ := ih
      (fun e' mem => (keeps _).kind.trans (live e' (List.mem_cons_of_mem _ mem))) distinct'
    refine ⟨fun e' mem => ?_, fun k other => ?_⟩
    · rcases List.mem_cons.mp mem with rfl | mem
      -- The first variable is not touched again, as the others are different.
      · rw [others _ fun e mem => (apart e mem).symm, setUpvalue, get?_modify, if_pos rfl, found,
          Option.map_some]
      · exact closed e' mem
    · rw [others k fun e' mem => other e' (List.mem_cons_of_mem _ mem), setUpvalue, get?_modify,
        if_neg (other e List.mem_cons_self).symm]

theorem closeFrom_eq (m : Machine) (slot : Nat) :
    m.closeFrom slot = { m with
      heap := (m.openUpvalues.takeWhile (slot ≤ ·.slot)).foldl (closeOne m.stack) m.heap
      openUpvalues := m.openUpvalues.dropWhile (slot ≤ ·.slot) } := by
  simp only [closeFrom, List.span_eq_takeWhile_dropWhile]

/-- In a sorted list the entries of a slot and above come first. -/
theorem mem_takeWhile_iff {e : OpenUpvalue}
    (sorted : entries.Pairwise fun e e' => e'.slot < e.slot) :
    e ∈ entries.takeWhile (slot ≤ ·.slot) ↔ e ∈ entries ∧ slot ≤ e.slot := by
  induction entries with
  | nil => simp
  | cons first rest ih =>
    obtain ⟨above, sorted'⟩ := List.pairwise_cons.mp sorted
    rw [List.takeWhile_cons]
    split
    next here =>
      rw [List.mem_cons, ih sorted', List.mem_cons]
      have here : slot ≤ first.slot := by simpa using here
      constructor
      · rintro (rfl | ⟨mem, le⟩)
        · exact ⟨.inl rfl, here⟩
        · exact ⟨.inr mem, le⟩
      · rintro ⟨rfl | mem, le⟩
        · exact .inl rfl
        · exact .inr ⟨mem, le⟩
    -- The first entry ends the prefix, and the later ones are below it.
    next below =>
      have below : first.slot < slot := by simpa using below
      simp only [List.not_mem_nil, false_iff, not_and, Nat.not_le, List.mem_cons]
      rintro (rfl | mem)
      · exact below
      · exact Nat.lt_trans (above e mem) below

theorem mem_dropWhile_iff {e : OpenUpvalue}
    (sorted : entries.Pairwise fun e e' => e'.slot < e.slot) :
    e ∈ entries.dropWhile (slot ≤ ·.slot) ↔ e ∈ entries ∧ e.slot < slot := by
  induction entries with
  | nil => simp
  | cons first rest ih =>
    obtain ⟨above, sorted'⟩ := List.pairwise_cons.mp sorted
    rw [List.dropWhile_cons]
    split
    next here =>
      have here : slot ≤ first.slot := by simpa using here
      rw [ih sorted', List.mem_cons]
      constructor
      · exact fun ⟨mem, lt⟩ => ⟨.inr mem, lt⟩
      · rintro ⟨rfl | mem, lt⟩
        · omega
        · exact ⟨mem, lt⟩
    next below =>
      have below : first.slot < slot := by simpa using below
      refine ⟨fun mem => ⟨mem, ?_⟩, And.left⟩
      rcases List.mem_cons.mp mem with rfl | mem
      · exact below
      · exact Nat.lt_trans (above e mem) below

/-- Different slots have different captured variables. -/
theorem Intact.distinct (intact : m.Intact c) :
    m.openUpvalues.Pairwise fun e e' => e.upvalue ≠ e'.upvalue := by
  apply intact.sorted.imp_of_mem
  intro e e' mem mem' lt same
  have found := intact.listed e mem
  rw [same, intact.listed e' mem'] at found
  have : e'.slot = e.slot := by simpa using found
  omega

/-- Closing from a slot on closes the captured variables of this slot and above over the values
there, and leaves the other objects as they are. -/
theorem Intact.get?_closeFrom (intact : m.Intact c) (slot : Nat) (h : Handle) :
    (m.closeFrom slot).heap.get? h =
      match m.heap.get? h with
      | some (.upvalue (.opened j)) =>
        some (.upvalue (if slot ≤ j then .closed (m.stack[j]?.getD .nil) else .opened j))
      | object => object := by
  have live (e : OpenUpvalue) (mem : e ∈ m.openUpvalues.takeWhile (slot ≤ ·.slot)) :
      m.heap.kind? e.upvalue = some .upvalue :=
    intact.captured e ((mem_takeWhile_iff intact.sorted).mp mem).1
  obtain ⟨closed, others⟩ := get?_closeAll m.stack live
    (intact.distinct.sublist (List.takeWhile_sublist _))
  rw [closeFrom_eq]
  simp only
  -- An object is closed if it is listed for a slot from here on. If it is not and is open
  -- nevertheless, then it is listed for a slot below.
  by_cases above : ∃ e ∈ m.openUpvalues, slot ≤ e.slot ∧ e.upvalue = h
  · obtain ⟨e, mem, le, rfl⟩ := above
    rw [closed e ((mem_takeWhile_iff intact.sorted).mpr ⟨mem, le⟩),
      get?_of_upvalue? (intact.listed e mem)]
    simp only [if_pos le]
  · rw [others h fun e mem eq => above ⟨e, ?_⟩]
    · split
      next j found =>
        rw [if_neg fun le => above ⟨⟨j, h⟩, intact.complete h j ?_, le, rfl⟩, found]
        rw [upvalue?, found]
      next => rfl
    · exact ⟨((mem_takeWhile_iff intact.sorted).mp mem).1,
        ((mem_takeWhile_iff intact.sorted).mp mem).2, eq⟩

theorem size_cells_closeFrom (sound : m.Sound c) (slot : Nat) :
    (m.closeFrom slot).heap.cells.size = m.heap.cells.size := by
  rw [closeFrom_eq]
  exact (sound_closeAll sound.heap sound.stack fun e mem =>
    sound.captured e (List.takeWhile_subset _ mem)).2.1

theorem keeps_closeFrom (sound : m.Sound c) (slot : Nat) (k : Handle) :
    m.heap.Keeps (m.closeFrom slot).heap k := by
  rw [closeFrom_eq]
  exact (sound_closeAll sound.heap sound.stack fun e mem =>
    sound.captured e (List.takeWhile_subset _ mem)).2.2 k

theorem Intact.closeFrom (intact : m.Intact c) (slot : Nat) : (m.closeFrom slot).Intact c := by
  obtain ⟨sound', size, keeps⟩ := sound_closeAll intact.heap intact.stack fun e mem =>
    intact.captured e (List.takeWhile_subset (slot ≤ ·.slot) mem)
  have sound := intact.toSound.withHeap sound' size.ge fun k _ _ => keeps k
  have at_ := intact.get?_closeFrom slot
  rw [closeFrom_eq] at at_ ⊢
  simp only at at_
  refine { sound with captured := ?_, sorted := ?_, listed := ?_, complete := ?_ }
  · exact fun e mem => sound.captured e ((mem_dropWhile_iff intact.sorted).mp mem).1
  · exact intact.sorted.sublist (List.dropWhile_sublist _)
  -- The variables below the slot are still open.
  · intro e mem
    obtain ⟨mem, below⟩ := (mem_dropWhile_iff intact.sorted).mp mem
    rw [upvalue?, at_, get?_of_upvalue? (intact.listed e mem)]
    simp only [if_neg (Nat.not_le_of_lt below)]
  -- A variable that is still open was open before, and below the slot.
  · intro h j open'
    have found := get?_of_upvalue? open'
    rw [at_] at found
    split at found
    next i before =>
      split at found
      · cases found
      next below =>
        obtain rfl : i = j := by simpa using found
        refine (mem_dropWhile_iff intact.sorted).mpr
          ⟨intact.complete h i ?_, Nat.lt_of_not_le below⟩
        rw [upvalue?, before]
    next other => exact absurd found (other j)

/-! ## Machines at rest -/

theorem Intact.reset (intact : m.Intact c) : m.reset.Intact c :=
  ((intact.closeFrom 0).withStack fun _ mem => absurd mem (Array.not_mem_empty _)).withFrames
    nofun nofun

theorem Intact.record (intact : m.Intact c) (event : ExecutionEvent) :
    (m.record event).Intact c := by
  unfold Machine.record
  split
  · exact intact.withEvents _
  · exact intact

/-- However a run ends, it leaves an intact machine if it has left one where it stopped. -/
theorem Intact.conclude (intact : m.Intact c) (stop : Stop) : (m.conclude stop).2.Intact c := by
  unfold Machine.conclude
  split
  · exact intact
  · exact intact
  · exact intact
  · split
    · exact intact
    · exact (intact.record _).reset

/-- Put a host function into the heap, and its name before it. -/
def registered (m : Machine) (native : Native) : Handle × Machine :=
  let (name, m) := m.intern native.name []
  m.allocate (.native native) [name]

/-- A host function is put into the heap before it is made a global. -/
theorem defineNative_eq (m : Machine) (native : Native) :
    m.defineNative native = { (m.registered native).2 with
      globals := (m.globals.insert ⟨(m.intern native.name []).1, Hash.ofText native.name⟩
        (.object (m.registered native).1)).2 } := rfl

/-- A host function may be put into the heap. Its name is kept although the machine does not hold it
yet. -/
theorem Intact.registered (intact : m.Intact c) (native : Native) :
    (m.registered native).2.Intact c ∧
      (m.registered native).2.heap.get? (m.registered native).1 = some (.native native) ∧
      (m.registered native).2.heap.text? (m.intern native.name []).1 = some native.name := by
  have interned := intact.intern native.name []
  have text : (m.intern native.name []).2.heap.text? (m.intern native.name []).1 = _ :=
    text?_intern intact.heap.canonical intact.heap.clean native.name (m.roots ++ [])
  unfold Machine.registered
  simp only
  generalize (m.intern native.name []).1 = name at text ⊢
  generalize (m.intern native.name []).2 = m at text interned ⊢
  have allocated := allocated_allocate interned.heap.clean (.native native) (m.roots ++ [name])
  have same := allocated.kept name (.root (List.mem_append_left _ (List.mem_append_right _
    List.mem_cons_self)) (contains_of_text? text))
  refine ⟨interned.allocate [name] nofun nofun trivial, allocated.get?, ?_⟩
  rw [← text, Heap.text?, Heap.text?, Heap.get?, Heap.get?, ← same]
  rfl

/-- A host function may be made a global. -/
theorem Intact.defineNative (intact : m.Intact c) (native : Native) :
    (m.defineNative native).Intact c := by
  obtain ⟨registered, live, text⟩ := intact.registered native
  rw [defineNative_eq]
  exact registered.withGlobals (registered.globals.insert (key?_of_text? text)
    (Value.held_object (contains_of_get? live)))

theorem intact_blank (c : Custody) (config : Config) (sink : Sink) (uptime : Number) :
    (blank config sink uptime).Intact c := by
  have empty := sound_empty c config
  have text := text?_intern empty.canonical empty.clean "init" []
  have sound := empty.intern "init" []
  refine ⟨⟨sound, ?_, ?_, ?_, ?_, .empty c _, ?_⟩, .nil, ?_, ?_⟩
  · exact fun v mem => absurd mem (Array.not_mem_empty v)
  · exact fun f mem => absurd mem List.not_mem_nil
  · exact fun f mem => absurd mem List.not_mem_nil
  · exact fun e mem => absurd mem List.not_mem_nil
  · change ((Heap.empty config).intern "init" []).2.key?
      ((Heap.empty config).intern "init" []).1 = _
    exact key?_of_text? text
  · exact fun e mem => absurd mem List.not_mem_nil
  -- A machine that has just been made holds one string and no variables.
  · intro h slot found
    change ((Heap.empty config).intern "init" []).2.upvalue? h = _ at found
    rcases interned_intern empty.canonical empty.clean "init" [] with ⟨-, same⟩ | ⟨-, allocated⟩
    · simp [same, upvalue?, get?] at found
    · have live := contains_of_get? (get?_of_upvalue? found)
      by_cases eq : h = ((Heap.empty config).intern "init" []).1
      · rw [upvalue?, eq, allocated.get?] at found
        cases found
      · rw [contains, allocated.old h eq live] at live
        simp at live

theorem intact_start (c : Custody) (config : Config) (sink : Sink) (uptime : Number) :
    (start config sink uptime).Intact c :=
  (intact_blank c config sink uptime).defineNative .clock

end Machine

end ScriptMachine
