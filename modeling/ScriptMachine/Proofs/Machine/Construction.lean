/-
# Code under construction

A code generator keeps alive what it is working on by naming it whenever it
allocates: the constants of the unfinished chunk, and the functions that it has
pinned. What it has just been given by the machine needs no naming until the next
allocation. A finished function takes the chunk along, and while it is allocated
it keeps its own name and constants.

So nothing is lost, whenever collections happen: all that is in the generator's
hands is live, with everything that it refers to, and so is a finished function as
long as something refers to it.

## Main definitions

* `Heap.Needs`, `Heap.Whole` — what handles refer to, step by step, is live
* `Draft`, `Draft.Step` — a code generator at work

## Main results

* `Whole.allocated` — an allocation loses nothing that its roots or the new object need
* `Kept.step`, `Kept.works` — nothing that a code generator holds is lost
* `Draft.construction_kept` — that, and what becomes of finished functions
-/

import ScriptMachine.Proofs.Machine.Occurring

namespace ScriptMachine

/-- What handles need: the handles themselves, and what a needed object refers to. It may have been
freed. -/
inductive Heap.Needs (heap : Heap) (handles : List Handle) : Handle → Prop
  | root {h : Handle} (mem : h ∈ handles) : Needs heap handles h
  | reference {h k : Handle} {object : Object} (needs : Needs heap handles h)
    (found : heap.get? h = some object) (mem : k ∈ object.references) : Needs heap handles k

/-- All that the handles need is live. -/
def Heap.Whole (heap : Heap) (handles : List Handle) : Prop :=
  ∀ h, heap.Needs handles h → heap.contains h

open Heap

namespace Heap

variable {heap after : Heap} {handles more roots kept : List Handle} {h k : Handle}
  {object : Object} {text : String}

theorem Needs.mono (sub : handles ⊆ more) (needs : heap.Needs handles h) : heap.Needs more h := by
  induction needs with
  | root mem => exact .root (sub mem)
  | reference _ found mem ih => exact .reference ih found mem

theorem Needs.trans (needs : heap.Needs handles h) (further : heap.Needs [h] k) :
    heap.Needs handles k := by
  induction further with
  | root mem => exact List.mem_singleton.mp mem ▸ needs
  | reference _ found mem ih => exact .reference ih found mem

theorem Whole.mono (sub : handles ⊆ more) (whole : heap.Whole more) : heap.Whole handles :=
  fun h needs => whole h (needs.mono sub)

theorem Whole.of_needs (whole : heap.Whole handles) (needs : heap.Needs handles h) :
    heap.Whole [h] := fun k further => whole k (needs.trans further)

/-- What is needed is kept, if it is live. -/
theorem Whole.reach (whole : heap.Whole handles) (needs : heap.Needs handles h) :
    heap.Reach handles h := by
  induction needs with
  | root mem => exact .root mem (whole _ (.root mem))
  | reference needs found mem ih =>
    exact .reference ih found mem (whole _ (needs.reference found mem))

/-- A string needs nothing else. -/
theorem Whole.string (whole : heap.Whole handles) (found : heap.text? h = some text) :
    heap.Whole (h :: handles) := by
  obtain ⟨s, found, -⟩ := text?_eq_some_iff.mp found
  intro k needs
  suffices known : k = h ∨ heap.Needs handles k by
    rcases known with rfl | needs
    · exact contains_of_get? found
    · exact whole k needs
  induction needs with
  | root mem => exact (List.mem_cons.mp mem).imp_right .root
  | reference _ live mem ih =>
    rcases ih with rfl | needs
    · rw [found] at live
      cases live
      cases mem
    · exact .inr (needs.reference live mem)

/-- An allocation loses nothing that is needed by the new object or by what is kept alive. -/
theorem Whole.allocated (whole : heap.Whole (kept ++ object.references))
    (allocated : heap.Allocated object roots h after) (sub : kept ⊆ roots) :
    after.Whole (h :: kept) := by
  have reach {k : Handle} (needs : heap.Needs (kept ++ object.references) k) :
      heap.Reach (roots ++ object.references) k := (whole.reach needs).mono (by grind)
  intro k needs
  suffices known : k = h ∨ heap.Needs (kept ++ object.references) k by
    rcases known with rfl | needs
    · exact contains_of_get? allocated.get?
    · rw [contains, allocated.kept k (reach needs)]
      exact whole k needs
  induction needs with
  | root mem => exact (List.mem_cons.mp mem).imp_right fun mem => .root (List.mem_append_left _ mem)
  | reference _ live mem ih =>
    rcases ih with rfl | needs
    · cases allocated.get?.symm.trans live
      exact .inr (.root (List.mem_append_right _ mem))
    · rw [allocated.get?_kept (reach needs)] at live
      exact .inr (needs.reference live mem)

theorem Retains.trans {other : Heap} (retains : heap.Retains other)
    (retains' : other.Retains after) : heap.Retains after where
  grown := retains.grown.trans retains'.grown
  same h object issued found :=
    retains.same h object issued (retains'.same h object (issued.trans_le retains.grown) found)

end Heap

/-- If nothing dangles, then all is live that the machine needs. -/
theorem Machine.NothingDangles.whole_roots {m : Machine} (nothing : m.NothingDangles) :
    m.heap.Whole m.roots := by
  intro h needs
  cases needs with
  | reference _ found mem => exact nothing.objects _ _ found _ mem
  | root mem =>
    simp only [Machine.roots, List.mem_append, List.mem_filterMap, List.mem_flatMap, List.mem_map,
      List.mem_cons, List.not_mem_nil, or_false] at mem
    rcases mem with (((⟨v, mem, eq⟩ | ⟨f, mem, eq | eq⟩) | ⟨e, mem, rfl⟩) | mem) | rfl
    · exact nothing.stack v (Array.mem_toList_iff.mp mem) h eq
    · obtain ⟨_, _, _, found⟩ := nothing.closures f mem
      exact contains_of_get? (eq ▸ found)
    · obtain ⟨_, found⟩ := nothing.functions f mem
      exact contains_of_get? (eq ▸ found)
    · exact nothing.openUpvalues e mem
    · exact nothing.globals h mem
    · exact nothing.initKey

/-! ## Code generators -/

/-- A code generator at work. -/
structure Draft where
  machine : Machine
  /-- The chunk under construction. -/
  chunk : Chunk Value
  /-- Finished functions that are kept alive. -/
  pins : List Handle
  /-- What the machine has given last. -/
  given : Option Handle

namespace Draft

open Machine

variable {m : Machine} {d d' : Draft} {outer : List Handle} {h : Handle} {f : Function}

/-- What is kept alive besides the roots of the machine. -/
def roots (d : Draft) : List Handle := Object.chunkReferences d.chunk ++ d.pins

/-- What the code generator may use: what it keeps alive, and what the machine has given last, as
nothing can free that before the next allocation. -/
def held (d : Draft) : List Handle := d.roots ++ d.given.toList

/-- A code generator that has not done anything. -/
def start (m : Machine) : Draft := ⟨m, .empty, [], none⟩

/-- Intern a text. -/
def intern (d : Draft) (text : String) : Draft :=
  let (h, machine) := d.machine.intern text d.roots
  { d with machine, given := some h }

/-- The function that the chunk is finished as. -/
def function (d : Draft) (name : Option Handle) (arity captureCount : Nat) : Function :=
  ⟨name, arity, captureCount, d.chunk⟩

/-- Finish the chunk as a function, and begin another one. The chunk is not kept alive any more, but
belongs to the function. -/
def finish (d : Draft) (name : Option Handle) (arity captureCount : Nat) : Draft :=
  let (h, machine) := d.machine.allocate (.function (d.function name arity captureCount)) d.pins
  ⟨machine, .empty, d.pins, some h⟩

/-- What a code generator does. All handles that it uses are its own to use. -/
inductive Step : Draft → Draft → Prop
  | intern (d : Draft) (text : String) : Step d (d.intern text)
  /-- The chunk is written, or given up. -/
  | write (d : Draft) (chunk : Chunk Value) (known : Object.chunkReferences chunk ⊆ d.held) :
    Step d { d with chunk }
  /-- Functions are pinned, or are not pinned any more. -/
  | pin (d : Draft) (pins : List Handle) (known : pins ⊆ d.held) : Step d { d with pins }
  | finish (d : Draft) (name : Option Handle) (arity captureCount : Nat)
    (known : name.toList ⊆ d.held) : Step d (d.finish name arity captureCount)

/-- The code generator works for a while. -/
abbrev Works : Draft → Draft → Prop := Relation.ReflTransGen Step

/-! ## What is held -/

theorem roots_subset_held (d : Draft) : d.roots ⊆ d.held := List.subset_append_left ..

theorem chunkReferences_subset_held (d : Draft) : Object.chunkReferences d.chunk ⊆ d.held :=
  List.Subset.trans (List.subset_append_left ..) d.roots_subset_held

theorem pins_subset_held (d : Draft) : d.pins ⊆ d.held :=
  List.Subset.trans (List.subset_append_right ..) d.roots_subset_held

/-- No other handles have been put anywhere than those that are held. -/
theorem held_subset (chunk : Object.chunkReferences d'.chunk ⊆ d.held) (pins : d'.pins ⊆ d.held)
    (given : d'.given = d.given) : d'.held ⊆ d.held := by
  refine List.append_subset.mpr ⟨List.append_subset.mpr ⟨chunk, pins⟩, ?_⟩
  rw [given]
  exact List.subset_append_right ..

/-- After an allocation the new handle is held, and of the others those that were kept alive. -/
theorem held_intern (d : Draft) (text : String) :
    (d.intern text).held = d.roots ++ [(d.machine.intern text d.roots).1] := rfl

theorem held_finish (d : Draft) (name : Option Handle) (arity captureCount : Nat) :
    (d.finish name arity captureCount).held = d.pins ++ [(d.machine.allocate
      (.function (d.function name arity captureCount)) d.pins).1] := rfl

/-! ## Nothing is lost -/

/-- Nothing is lost that the code generator or this part of the machine needs. -/
structure Kept (outer : List Handle) (d : Draft) : Prop where
  clean : d.machine.heap.Clean
  canonical : d.machine.heap.Canonical
  rooted : outer ⊆ d.machine.roots
  whole : d.machine.heap.Whole (outer ++ d.held)

/-- As long as nothing is allocated, no handle is held but old ones. -/
theorem Kept.of_subset (kept : d.Kept outer) (machine : d'.machine = d.machine)
    (sub : d'.held ⊆ d.held) : d'.Kept outer := by
  obtain ⟨clean, canonical, rooted, whole⟩ := kept
  rw [← machine] at clean canonical rooted whole
  exact ⟨clean, canonical, rooted, whole.mono (by grind)⟩

theorem Kept.intern (kept : d.Kept outer) (text : String) : (d.intern text).Kept outer := by
  obtain ⟨clean, canonical, rooted, whole⟩ := kept
  refine ⟨clean.intern text _, canonical.intern clean text _, rooted, ?_⟩
  have sub := d.roots_subset_held
  have needed : d.machine.heap.Whole (outer ++ d.roots) := whole.mono (by grind)
  suffices all : (d.machine.heap.intern text (d.machine.roots ++ d.roots)).2.Whole
      ((d.machine.heap.intern text (d.machine.roots ++ d.roots)).1 :: (outer ++ d.roots)) by
    rw [held_intern]
    exact all.mono (by grind [Machine.intern])
  rcases interned_intern canonical clean text (d.machine.roots ++ d.roots) with
    ⟨found, same⟩ | ⟨-, allocated⟩
  · rw [same]
    exact needed.string found
  · exact Whole.allocated (by rwa [Object.references, List.append_nil]) allocated (by grind)

theorem Kept.finish (kept : d.Kept outer) {name : Option Handle} (arity captureCount : Nat)
    (known : name.toList ⊆ d.held) : (d.finish name arity captureCount).Kept outer := by
  obtain ⟨clean, canonical, rooted, whole⟩ := kept
  let object : Object := .function (d.function name arity captureCount)
  have plain : object.kind ≠ .string := nofun
  refine ⟨clean.allocate object _, canonical.allocate clean plain _, rooted, ?_⟩
  -- The chunk is not kept alive any more, but the new function needs its constants.
  have references : object.references ⊆ d.held :=
    List.append_subset.mpr ⟨known, d.chunkReferences_subset_held⟩
  have pins := d.pins_subset_held
  have needed : d.machine.heap.Whole (outer ++ d.pins ++ object.references) :=
    whole.mono (by grind)
  have all := needed.allocated (allocated_allocate clean object (d.machine.roots ++ d.pins))
    (by grind)
  rw [held_finish]
  exact all.mono (by grind [Machine.allocate])

/-- Whatever a code generator does, nothing is lost. -/
theorem Kept.step (kept : d.Kept outer) (step : d.Step d') : d'.Kept outer := by
  cases step with
  | intern text => exact kept.intern text
  | finish name arity captureCount known => exact kept.finish arity captureCount known
  | write chunk known => exact kept.of_subset rfl (held_subset known d.pins_subset_held rfl)
  | pin pins known =>
    exact kept.of_subset rfl (held_subset d.chunkReferences_subset_held known rfl)

theorem Kept.works (kept : d.Kept outer) (works : d.Works d') : d'.Kept outer := by
  induction works with
  | refl => exact kept
  | tail _ step ih => exact ih.step step

/-- What was live before is as it was, unless it has been freed. -/
theorem Kept.retains_step (kept : d.Kept outer) (step : d.Step d') :
    d.machine.heap.Retains d'.machine.heap := by
  cases step with
  | intern text => exact retains_intern kept.canonical kept.clean text _
  | finish name arity captureCount => exact (allocated_allocate kept.clean _ _).retains
  | write | pin => exact .refl _

theorem Kept.retains (kept : d.Kept outer) (works : d.Works d') :
    d.machine.heap.Retains d'.machine.heap := by
  induction works with
  | refl => exact .refl _
  | tail before step ih => exact ih.trans ((kept.works before).retains_step step)

/-- A finished function is found under its handle as long as it is live. -/
theorem Kept.finished (kept : d.Kept outer) {name : Option Handle} {arity captureCount : Nat}
    (works : (d.finish name arity captureCount).Works d')
    (known : name.toList ⊆ d.held) (given : (d.finish name arity captureCount).given = some h)
    (live : d'.machine.heap.contains h) :
    d'.machine.heap.get? h = some (.function (d.function name arity captureCount)) := by
  let object : Object := .function (d.function name arity captureCount)
  have allocated := allocated_allocate kept.clean object (d.machine.roots ++ d.pins)
  obtain rfl : (d.machine.heap.allocate object (d.machine.roots ++ d.pins)).1 = h :=
    Option.some.inj given
  obtain ⟨o, found⟩ := contains_iff_get?.mp live
  have issued := lt_size_of_contains (contains_of_get? allocated.get?)
  have before := ((kept.finish arity captureCount known).retains works).same _ o issued found
  rw [found, ← before]
  exact allocated.get?

/-- At the start nothing has been lost. -/
theorem kept_start {c : Custody} {pins : List Handle} (sound : m.Sound c) (rooted : outer ⊆ m.roots)
    (whole : m.heap.Whole (outer ++ pins)) : (⟨m, .empty, pins, none⟩ : Draft).Kept outer := by
  refine ⟨sound.heap.clean, sound.heap.canonical, rooted, ?_⟩
  change m.heap.Whole (outer ++ (pins ++ []))
  rwa [List.append_nil]

/-- Code under construction is never lost, however the machine has come about, and whenever it
collects. Whatever a code generator has done, all that it holds is live, with everything that this
needs. A function that it finishes is found under its handle with everything that it needs as long
as a pin, a constant or another function refers to it. The same goes for what the machine itself
refers to, or a part of that, if this was whole at the start. -/
theorem construction_kept (occurs : m.Occurs) (rooted : outer ⊆ m.roots)
    (whole : m.heap.Whole outer) (works : (start m).Works d) :
    d.machine.heap.Whole (outer ++ d.held) ∧
    ∀ name arity captureCount, name.toList ⊆ d.held →
      ∃ h, (d.finish name arity captureCount).given = some h ∧
        ∀ d', (d.finish name arity captureCount).Works d' →
          d'.machine.heap.Needs (outer ++ d'.held) h →
          d'.machine.heap.get? h = some (.function (d.function name arity captureCount)) ∧
          d'.machine.heap.Whole [h] := by
  replace whole : m.heap.Whole (outer ++ []) := by rwa [List.append_nil]
  have kept := (kept_start occurs.intact.toSound rooted whole).works works
  refine ⟨kept.whole, fun name arity captureCount known => ⟨_, rfl, fun d' works needs => ?_⟩⟩
  have later := (kept.finish arity captureCount known).works works
  exact ⟨kept.finished works known rfl (later.whole _ needs), later.whole.of_needs needs⟩

/-- A code generator on a machine that collects before every allocation. It has interned a string
and written it as a constant. -/
def drafting : Draft :=
  let diagnostics := { stressCollections := true }
  let d := (Draft.start (Machine.start { diagnostics } default .zero)).intern "s"
  { d with chunk := ⟨#[], #[], #[.nil, .object ⟨3⟩]⟩ }

/-- It has finished the chunk as a function, and has used that as a constant of another one. -/
def nested : Draft :=
  let d := (drafting.intern "f").finish (some ⟨4⟩) 0 0
  let d := { d with pins := [⟨5⟩] }
  let d := ({ d with chunk := ⟨#[], #[], #[.nil, .object ⟨5⟩]⟩ } : Draft).intern "g"
  ({ d with pins := [] } : Draft).finish (some ⟨6⟩) 0 0

/-- The inner function and its constant are there as long as the outer function is. -/
theorem construction_kept_nested :
    nested.given = some ⟨7⟩ ∧
    nested.machine.heap.get? ⟨5⟩ = some (.function ⟨some ⟨4⟩, 0, 0, drafting.chunk⟩) ∧
    nested.machine.heap.contains ⟨3⟩ ∧ nested.machine.heap.text? ⟨4⟩ = some "f" := by
  let m := Machine.start { diagnostics := { stressCollections := true } } default .zero
  have whole : m.heap.Whole m.roots :=
    (Reachable.start (c := .live) _ _ _).intact.nothingDangles.whole_roots
  have works : (Draft.start m).Works (drafting.intern "f") := by
    refine ((Relation.ReflTransGen.single (.intern _ "s")).tail (.write _ _ ?_)).tail
      (.intern _ "f")
    decide +kernel
  have later : ((drafting.intern "f").finish (some ⟨4⟩) 0 0).Works nested := by
    refine ((((Relation.ReflTransGen.single (.pin _ [⟨5⟩] ?_)).tail (.write _ _ ?_)).tail
      (.intern _ "g")).tail (.pin _ [] ?_)).tail (.finish _ (some ⟨6⟩) 0 0 ?_)
    all_goals decide +kernel
  obtain ⟨h, given, kept⟩ := (construction_kept (.start _ _ _) (List.Subset.refl _) whole works).2
    (some ⟨4⟩) 0 0 (by decide +kernel)
  obtain rfl : h = ⟨5⟩ := by
    have : ((drafting.intern "f").finish (some ⟨4⟩) 0 0).given = some ⟨5⟩ := by decide +kernel
    exact Option.some.inj (given.symm.trans this)
  have outer : (nested.machine.heap.get? ⟨7⟩).map Object.references = some [⟨6⟩, ⟨5⟩] := by
    decide +kernel
  obtain ⟨object, found, refers⟩ := Option.map_eq_some_iff.mp outer
  have holds : ⟨7⟩ ∈ nested.held := by decide +kernel
  have needed : nested.machine.heap.Needs (m.roots ++ nested.held) ⟨5⟩ :=
    (Needs.root (List.mem_append_right _ holds)).reference found (by simp [refers])
  obtain ⟨inner, all⟩ := kept nested later needed
  refine ⟨by decide +kernel, inner, all _ ?_, by decide +kernel⟩
  exact (Needs.root (by simp)).reference inner (by decide +kernel)

end Draft

end ScriptMachine
