/-
# Rendering ends on every heap

A host may put objects of any kind into a heap, bound methods among them, and change the fields and
methods of what is there. Byte code makes anything the method of a class. So a class may come to
have a bound method of a bound method as its method, in chains of any length, and objects in such a
chain may be freed or replaced while it stands. The chain leads to older and older objects all the
same, because whoever makes a bound method has been handed the handle of its method before.

## Main definitions

* `Machine.Hosted` — the machines of a host that uses the handles it was given as it likes
* `Heap.Worked` — the heaps of such hosts, with and without a machine

## Main results

* `Hosted.timely` — none of these machines holds a handle that was not handed out
* `Worked.rendering_ends` — rendering ends, and visits no object twice
-/

import ScriptMachine.Proofs.Machine.Passing

namespace ScriptMachine

open Heap

namespace Machine

variable {m m' : Machine} {n : Nat}

/-- The machines that come about whatever a host does with the handles that it was given, and
whatever byte code it runs. Host functions have no other handles either. -/
inductive Hosted : Machine → Prop
  | start (config : Config) (sink : Sink) (uptime : Number) : Hosted (start config sink uptime)
  /-- The host works on the heap. -/
  | work {m : Machine} {heap : Heap} (hosted : Hosted m) (works : m.heap.Works heap) :
    Hosted { m with heap }
  | defineNative {m : Machine} (hosted : Hosted m) (native : Native) :
    Hosted (m.defineNative native)
  /-- Time passes. -/
  | tick {m : Machine} (hosted : Hosted m) (uptime : Number) : Hosted { m with uptime }
  /-- What has been printed is taken away. -/
  | drain {m : Machine} (hosted : Hosted m) (sink : Sink) : Hosted { m with sink }
  /-- The host has a function run. -/
  | enter {m m' : Machine} (hosted : Hosted m) (h : Handle)
    (ran : enter h none m = .ok ⟨⟩ m') : Hosted m'
  /-- The function cannot be run. -/
  | refuse {m m' : Machine} {stop : Stop} (hosted : Hosted m) (h : Handle)
    (ran : enter h none m = .error stop m') : Hosted (m'.conclude stop).2
  | step {m m' : Machine} (hosted : Hosted m) (honest : m.Honest .issued)
    (ran : Exec.step none m = .ok ⟨⟩ m') : Hosted m'
  /-- The run ends. -/
  | stop {m m' : Machine} {stop : Stop} (hosted : Hosted m) (honest : m.Honest .issued)
    (ran : Exec.step none m = .error stop m') : Hosted (m'.conclude stop).2

namespace Hosted

theorem allocate (hosted : m.Hosted) (object : Object) (extra : List Handle)
    (below : object.Below m.heap.cells.size) : (m.allocate object extra).2.Hosted :=
  hosted.work (.allocate object (m.roots ++ extra) below)

theorem intern (hosted : m.Hosted) (text : String) (extra : List Handle) :
    (m.intern text extra).2.Hosted :=
  hosted.work (.intern text (m.roots ++ extra))

theorem left_enter (hosted : m.Hosted) {function : Handle}
    (goes : m.stopped? (Machine.enter function) none = none) :
    (m.left (Machine.enter function) none).Hosted :=
  hosted.enter function (eq_ok_of_stopped? goes)

theorem left_step (hosted : m.Hosted) (honest : m.Honest .issued)
    (goes : m.stopped? Exec.step none = none) : (m.left Exec.step none).Hosted :=
  hosted.step honest (eq_ok_of_stopped? goes)

/-- Only handles that were handed out are in such a machine. -/
theorem timely (hosted : m.Hosted) : m.Timely := by
  induction hosted with
  | start config sink uptime =>
    obtain ⟨n, -, -, heap⟩ := (dated_empty config).intern "init" []
    have blank : (blank config sink uptime).Dated n :=
      ⟨heap, fun v mem => absurd mem (Array.not_mem_empty v), Table.below_empty,
        fun e mem => absurd mem List.not_mem_nil⟩
    exact blank.defineNative .clock
  | work _ works ih =>
    obtain ⟨n, dated⟩ := ih
    obtain ⟨n', le, dated'⟩ := works.dated dated.heap
    exact ⟨n', dated.withHeap dated' le⟩
  | defineNative _ native ih => exact ih.choose_spec.defineNative native
  | tick _ uptime ih => exact (ih.choose_spec.withUptime uptime).timely
  | drain _ sink ih => exact (ih.choose_spec.withSink sink).timely
  | enter _ h ran ih => exact (Exec.Hands.enter ih.choose_spec).of_ok ran
  | @refuse m m' stop _ h ran ih =>
    obtain ⟨n, dated⟩ := (Exec.Hands.enter ih.choose_spec).of_error ran
    exact (dated.conclude stop).timely
  | step _ honest ran ih => exact (Exec.Hands.step ih.choose_spec honest).of_ok ran
  | @stop m m' stop _ honest ran ih =>
    obtain ⟨n, dated⟩ := (Exec.Hands.step ih.choose_spec honest).of_error ran
    exact (dated.conclude stop).timely

end Hosted

/-- The machines of a host that puts functions and host functions alone into the heap are among
these. -/
theorem Reachable.hosted (reachable : m.Reachable .issued) : m.Hosted := by
  induction reachable with
  | start config sink uptime => exact .start config sink uptime
  | defineNative _ native ih => exact ih.defineNative native
  | intern _ text extra ih => exact ih.intern text extra
  | allocate _ f extra promised ih => exact ih.allocate (.function f) extra promised
  | collect _ ih => exact ih.work (.collect _)
  | tick _ uptime ih => exact ih.tick uptime
  | enter _ h ran ih => exact ih.enter h ran
  | refuse _ h ran ih => exact ih.refuse h ran
  | step _ honest ran ih => exact ih.step honest ran
  | stop _ honest ran ih => exact ih.stop honest ran

end Machine

namespace Heap

variable {heap : Heap}

/-- The heaps that come about by the work of hosts, without a machine or as the heap of one. -/
inductive Worked : Heap → Prop
  | empty (config : Config) : Worked (empty config)
  | work {heap after : Heap} (worked : Worked heap) (works : heap.Works after) : Worked after
  | machine {m : Machine} (hosted : m.Hosted) : Worked m.heap

theorem Worked.dated (worked : heap.Worked) : ∃ n, heap.Dated n := by
  induction worked with
  | empty config => exact ⟨0, dated_empty config⟩
  | work _ works ih =>
    obtain ⟨n, dated⟩ := ih
    exact (works.dated dated).imp fun _ grown => grown.2
  | machine hosted =>
    obtain ⟨n, dated⟩ := hosted.timely
    exact ⟨n, dated.heap⟩

/-- Whatever hosts and byte code have done to a heap with the handles that it has handed out, no way
from a bound method to its method and on leads back to an object on the way. So the rendering of
every value ends without a bound, with the text that is displayed: it visits live objects only, each
of them once at most, and no more than there are. -/
theorem Worked.rendering_ends (worked : heap.Worked) :
    (∀ h, ¬ Relation.TransGen heap.Binds h h) ∧
      ∀ v, ∃ visited, heap.RendersValue v visited (heap.display v) ∧ visited.Nodup ∧
        (∀ h ∈ visited, heap.contains h) ∧ visited.length ≤ heap.size := by
  obtain ⟨n, dated⟩ := worked.dated
  exact ⟨dated.descending.not_transGen, dated.descending.rendersValue_display⟩

end Heap

namespace Machine

/-- A host has put a bound method into a machine, and a bound method of that, and has made this a
method of a class. There is a script that takes the method from an instance. -/
def stocked : Machine :=
  let m := ((start {} default .zero).intern "m" []).2
  let m := (m.allocate (.function ⟨some ⟨3⟩, 0, 0, default⟩) []).2
  let m := (m.allocate (.closure ⟨4⟩ #[] 0) []).2
  let m := (m.allocate (.cls ⟨3⟩ .empty) []).2
  let m := (m.allocate (.inst ⟨6⟩ .empty) []).2
  let m := (m.allocate (.bound (.object ⟨7⟩) ⟨5⟩) []).2
  let m := (m.allocate (.bound (.object ⟨7⟩) ⟨8⟩) []).2
  let methods := (Table.empty.insert ⟨⟨3⟩, Hash.ofText "m"⟩ (.object ⟨9⟩)).2
  let m := { m with heap := m.heap.setMethods ⟨6⟩ methods }
  let script : Chunk Value :=
    ⟨#[Opcode.constant.byte, 0, Opcode.getProperty.byte, 1], #[1, 1, 1, 1],
      #[.object ⟨7⟩, .object ⟨3⟩]⟩
  (m.allocate (.function (.script script)) []).2

/-- The script has bound the method to the instance once more. -/
def wrapping : Machine :=
  ((stocked.left (enter ⟨10⟩) none).left Exec.step none).left Exec.step none

theorem hosted_stocked : stocked.Hosted := by
  refine Hosted.allocate (Hosted.work (.allocate (.allocate (.allocate (.allocate (.allocate
    (.allocate (.intern (.start _ _ _) _ _) _ [] ?_) _ [] ?_) _ [] ?_) _ [] ?_) _ [] ?_) _ [] ?_)
    (.setMethods _ _ ?_)) _ [] ?_
  all_goals decide +kernel

/-- Three bound methods lead to the text, and two would not. -/
theorem rendering_ends_wrapping :
    wrapping.heap.Worked ∧ wrapping.heap.textWithin 2 ⟨12⟩ = none ∧
      wrapping.heap.textWithin 3 ⟨12⟩ = some "<fn m>" ∧
      (¬ Relation.TransGen wrapping.heap.Binds ⟨12⟩ ⟨12⟩) ∧
      ∃ visited, wrapping.heap.RendersValue (.object ⟨12⟩) visited "<fn m>" ∧ visited.Nodup ∧
        visited.length ≤ 13 := by
  have entered := hosted_stocked.left_enter (show stocked.stopped? (enter ⟨10⟩) none = none by
    decide +kernel)
  have made : wrapping.Hosted :=
    (entered.left_step (honest_of_nextCallee? (by decide +kernel)) (by decide +kernel)).left_step
      (honest_of_nextCallee? (by decide +kernel)) (by decide +kernel)
  have worked : wrapping.heap.Worked := .machine made
  obtain ⟨acyclic, ends⟩ := worked.rendering_ends
  obtain ⟨visited, renders, nodup, -, le⟩ := ends (.object ⟨12⟩)
  have text : wrapping.heap.display (.object ⟨12⟩) = "<fn m>" := by decide +kernel
  have size : wrapping.heap.size = 13 := by decide +kernel
  exact ⟨worked, by decide +kernel, by decide +kernel, acyclic _, visited, text ▸ renders, nodup,
    size ▸ le⟩

end Machine

end ScriptMachine
