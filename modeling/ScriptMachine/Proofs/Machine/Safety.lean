/-
# The machine is never at a loss

Byte code may be anything: it may pop below its frame, jump out of its code, end
in the middle of an instruction, capture slots that are not there, or bind
methods that are not closures; and its constants may be freed long since. The
machine goes on, or the script returns, or it fails with an error.

Where the machine takes something for granted, it is right. There is a frame
that runs a function; slots and objects that it addresses are there; nothing is
subtracted from less; every search for a key ends; and tracing lists what there
is to list. The stack and the frames stay within their limits.

## Main definitions

* `Machine.Regular` — the limits are kept, and the heap came about by its operations
* `Heap.Secure` — what a heap takes for granted
* `Machine.Ends` — the run returns a value or fails with an error

## Main results

* `Regular.change` — every change keeps the limits
* `Reachable.never_breaks` — no machine that a host can bring about is ever at a loss
-/

import ScriptMachine.Proofs.Correspondence.Display
import ScriptMachine.Proofs.Heap.Charges
import ScriptMachine.Proofs.Heap.Strings
import ScriptMachine.Proofs.Machine.Changes

namespace ScriptMachine

open Heap

/-! ## Heaps -/

/-- What a heap takes for granted: the bytes cover what is taken from them, the search for a text
ends, and so does the search for the place of a new string, after a collection as well. -/
structure Heap.Secure (heap : Heap) : Prop extends Covered heap where
  texts : ∀ text, heap.interned.TextSearchable text (Hash.ofText text) heap.text?
  places : ∀ object roots hash,
    (heap.makeRoom object roots).interned.Searchable ⟨⟨heap.cells.size⟩, hash⟩

theorem Heap.Evolves.secure {heap : Heap} {config : Config} (evolves : heap.Evolves config) :
    heap.Secure where
  toCovered := evolves.arises.covered
  texts text := evolves.canonical.lawful.textSearchable text _ _
  places object roots hash := by
    have canonical := evolves.canonical.makeRoom evolves.arises.clean object roots
    rw [← size_cells_makeRoom evolves.arises.clean object roots]
    exact canonical.lawful.searchable (canonical.agrees_next hash)

/-- However many live strings are made keys of a sound table, searches for live strings end. -/
theorem Table.Sound.searchable_insertAll {t : Table} {heap : Heap} {key : Key}
    {entries : List (Key × Value)} (sound : t.Sound .any heap)
    (live : ∀ e ∈ entries, heap.key? e.1.handle = some e.1)
    (found : heap.key? key.handle = some key) : (t.insertAll entries).Searchable key := by
  induction entries generalizing t with
  | nil => exact sound.lawful.searchable (sound.agrees found)
  | cons e rest ih =>
    exact ih (sound.insert (live e List.mem_cons_self) fun _ _ => trivial)
      fun e' mem => live e' (List.mem_cons_of_mem _ mem)

namespace Machine

variable {c : Custody} {m m' : Machine} {stop : Stop}

/-! ## Limits -/

/-- The stack and the frames are within their limits, and the heap came about by its operations,
none of which overwrote a string. -/
structure Regular (m : Machine) : Prop where
  stack : m.stack.size ≤ m.config.stackLimit
  frames : m.frames.length ≤ m.config.framesMax
  heap : m.heap.Evolves m.config

theorem regular_blank (config : Config) (sink : Sink) (uptime : Number) :
    (blank config sink uptime).Regular :=
  ⟨Nat.zero_le _, Nat.zero_le _, Evolves.empty.intern "init" []⟩

theorem Regular.change (regular : m.Regular) (change : m.Change m') : m'.Regular := by
  obtain ⟨stack, frames, heap⟩ := regular
  cases change with
  | allocate object extra other => exact ⟨stack, frames, heap.allocate object _ other⟩
  | intern text extra => exact ⟨stack, frames, heap.intern text _⟩
  | collect => exact ⟨stack, frames, heap.collect _⟩
  | modify h f other => exact ⟨stack, frames, heap.modify h f other⟩
  | recharge h => exact ⟨stack, frames, heap.recharge h⟩
  | push v room => exact ⟨by simpa using room, frames, heap⟩
  | stack _ le => exact ⟨le.trans stack, frames, heap⟩
  | enter frame room => exact ⟨stack, room, heap⟩
  | frames _ le => exact ⟨stack, le.trans frames, heap⟩
  | globals | openUpvalues | sink | events | uptime => exact ⟨stack, frames, heap⟩

/-- No change takes cells from the heap. -/
theorem Change.grown (change : m.Change m') (regular : m.Regular) :
    m.heap.cells.size ≤ m'.heap.cells.size := by
  have clean := regular.heap.arises.clean
  cases change with
  | allocate object extra => exact (allocated_allocate clean object _).grown
  | intern text extra => exact (retains_intern regular.heap.canonical clean text _).grown
  | collect => exact (size_cells_collect clean _).ge
  | modify h f => exact (size_cells_modify m.heap h f).ge
  | recharge h => exact (size_cells_recharge m.heap h).ge
  | push | stack | enter | frames | globals | openUpvalues | sink | events | uptime =>
    exact Nat.le_refl _

/-- Changes keep a machine within its limits. -/
theorem Changes.regular (changes : m.Changes m') (regular : m.Regular) : m'.Regular :=
  changes.induct (fun _ _ regular change => regular.change change) regular

theorem Changes.grown (changes : m.Changes m') (regular : m.Regular) :
    m.heap.cells.size ≤ m'.heap.cells.size := by
  have both := changes.induct (p := fun m' => m'.Regular ∧ m.heap.cells.size ≤ m'.heap.cells.size)
    (fun _ _ ⟨regular, grown⟩ change =>
      ⟨regular.change change, grown.trans (change.grown regular)⟩) ⟨regular, Nat.le_refl _⟩
  exact both.2

theorem Occurs.regular (occurs : m.Occurs) : m.Regular :=
  occurs.invariant regular_blank fun _ _ regular change => regular.change change

theorem Reachable.regular (reachable : m.Reachable c) : m.Regular := reachable.occurs.regular

/-! ## Runs -/

/-- The host may promise less. -/
theorem Reachable.any (reachable : m.Reachable c) : m.Reachable .any := by
  induction reachable with
  | start config sink uptime => exact .start config sink uptime
  | defineNative _ native ih => exact ih.defineNative native
  | intern _ text extra ih => exact ih.intern text extra
  | allocate _ f extra _ ih => exact ih.allocate f extra fun _ _ => trivial
  | collect _ ih => exact ih.collect
  | tick _ uptime ih => exact ih.tick uptime
  | enter _ h ran ih => exact ih.enter h ran
  | refuse _ h ran ih => exact ih.refuse h ran
  | step _ _ ran ih => exact ih.step (honest_any _) ran
  | stop _ _ ran ih => exact ih.stop (honest_any _) ran

/-- All frames have an entry in the backtrace, as their functions are there. -/
theorem Sound.exists_backtrace (sound : m.Sound c) : ∃ entries, m.backtrace? = some entries := by
  have functions := sound.functions
  unfold backtrace?
  generalize m.frames = frames at functions
  induction frames with
  | nil => exact ⟨[], rfl⟩
  | cons f rest ih =>
    obtain ⟨function, found, -⟩ := function?_of_kind? (functions f List.mem_cons_self)
    obtain ⟨entries, eq⟩ := ih fun f' mem => functions f' (List.mem_cons_of_mem _ mem)
    have here : ∃ entry, m.backtraceEntry? f = some entry := ⟨_, by
      simp only [ backtraceEntry?, found, Option.bind_eq_bind, Option.bind_some]
      rfl⟩
    obtain ⟨entry, here⟩ := here
    exact ⟨entry :: entries, by simp [List.mapM_cons, here, eq]⟩

/-- The machine has stopped because the script has returned, and the run ends with the value, or
because it has failed, and the run ends with the error. -/
def Ends (m : Machine) : Stop → Prop
  | .finished v => (m.conclude (.finished v)).1 = .value v
  | .failed kind => ∃ backtrace, (m.conclude (.failed kind)).1 = .runtimeError ⟨kind, backtrace⟩
  | .broken _ | .paused => False

theorem ends_of_halted (halted : Exec.Halted c none m stop) : m.Ends stop := by
  cases stop with
  | finished v => rfl
  | failed kind =>
    obtain ⟨backtrace, eq⟩ := halted.sound.exists_backtrace
    refine ⟨backtrace, ?_⟩
    simp only [conclude, eq]
  | broken fault => exact halted
  | paused => exact halted.1 rfl

/-- Without any promise, a step that stops ends the run. -/
theorem Intact.ends_of_step (intact : m.Intact .any) (framed : m.frames ≠ [])
    (ran : Exec.step none m = .error stop m') : m'.Ends stop :=
  ends_of_halted ((Exec.Ensures.step intact framed m.honest_any).of_error ran)

theorem Intact.ends_of_steps {bound : Nat} (intact : m.Intact .any) (framed : m.frames ≠ [])
    (ran : m.steps bound = (some stop, m')) : m'.Ends stop := by
  induction bound generalizing m with
  | zero => cases ran
  | succ bound ih =>
    rw [Machine.steps] at ran
    cases step : Exec.step none m with
    | ok _ m'' =>
      rw [step] at ran
      obtain ⟨intact, framed⟩ := (Exec.Ensures.step intact framed m.honest_any).of_ok step
      exact ih intact framed ran
    | error stop' m'' =>
      rw [step] at ran
      cases ran
      exact intact.ends_of_step framed step

/-- The run returns a value, fails with an error, or goes on beyond the bound. -/
def Proper : Outcome → Prop
  | .value _ | .runtimeError _ | .unfinished => True
  | .compileError _ | .fault _ => False

theorem Ends.proper (ends : m.Ends stop) : Proper (m.conclude stop).1 := by
  cases stop with
  | finished v => trivial
  | failed kind =>
    obtain ⟨backtrace, eq⟩ := ends
    rw [eq]
    trivial
  | broken fault => exact ends.elim
  | paused => exact ends.elim

theorem Intact.proper_runFunction (intact : m.Intact .any) (bound : Nat) (h : Handle) :
    Proper (m.runFunction bound h).1 := by
  unfold runFunction
  split
  next stop m' ran => exact (ends_of_halted ((Exec.Ensures.enter intact).of_error ran)).proper
  next m' ran =>
    obtain ⟨intact, framed⟩ := (Exec.Ensures.enter intact).of_ok ran
    split
    next => trivial
    next stop m'' ran => exact (intact.ends_of_steps framed ran).proper

/-! ## Safety -/

/-- Tables of a sound machine are sound. -/
theorem Sound.table {t : Table} (sound : m.Sound c) (has : m.HasTable t) : t.Sound c m.heap := by
  cases has with
  | globals => exact sound.globals
  | methods found => exact (sound.heap.object _ _ found).2
  | fields found => exact (sound.heap.object _ _ found).2

/-- No machine that a host can bring about is ever at a loss, whatever byte code it runs. Whether a
step goes on or stops, it goes through states in which the limits are kept and the heap is
secure; and so does the entry of a function. A step that stops ends the run with a value or an
error; so does the entry of a function; and no run ends otherwise. Searches in tables end, also
while keys are added. Tracing gets through, and every object has a text, unless handles were made
up. -/
theorem Reachable.never_breaks (reachable : m.Reachable c) :
    (∀ m', m.Changes m' → m'.stack.size ≤ m'.config.stackLimit ∧
      m'.frames.length ≤ m'.config.framesMax ∧ m'.heap.Secure) ∧
    (∀ watch, m.Changes (m.left Exec.step watch)) ∧
    (∀ watch h, m.Changes (m.left (Machine.enter h) watch)) ∧
    (m.frames ≠ [] → ∀ stop m', Exec.step none m = .error stop m' → m'.Ends stop) ∧
    (∀ h stop m', Machine.enter h none m = .error stop m' → m'.Ends stop) ∧
    (∀ bound chunk, Proper (m.runChunk bound chunk).1) ∧
    (∀ t, m.HasTable t → ∀ entries key, (∀ e ∈ entries, m.heap.key? e.1.handle = some e.1) →
      m.heap.key? key.handle = some key → (t.insertAll entries).Searchable key) ∧
    (m.frames ≠ [] → ∀ watch, ∃ events,
      Exec.traceInstruction watch m = .ok ⟨⟩ { m with events }) ∧
    (c ≠ .any → ∀ h, (m.heap.textWithin m.heap.size h).isSome) := by
  have intact := reachable.any.intact
  refine ⟨fun m' changes => ?_, fun watch => (Exec.Leads.step watch m).left,
    fun watch h => (Exec.Leads.enter watch h m).left,
    fun framed stop m' ran => intact.ends_of_step framed ran,
    fun h stop m' ran => ends_of_halted ((Exec.Ensures.enter intact).of_error ran),
    fun bound chunk => ?_, fun t has entries key live found => ?_, fun framed watch => ?_,
    fun known h => reachable.intact.heap.textWithin_isSome known h⟩
  · have regular := changes.induct (fun _ _ regular change => Regular.change regular change)
      reachable.regular
    exact ⟨regular.stack, regular.frames, regular.heap.secure⟩
  · exact (reachable.any.allocate (.script chunk) [] fun _ _ => trivial).intact.proper_runFunction
      bound _
  · exact (intact.table has).searchable_insertAll live found
  · obtain ⟨f, rest, eq⟩ := List.exists_cons_of_ne_nil framed
    obtain ⟨function, found, -⟩ :=
      function?_of_kind? (intact.functions f (eq ▸ List.mem_cons_self))
    exact Exec.traceInstruction_eq watch (by rw [eq, List.head?_cons]) found

/-- A machine with room for one frame and two values that collects before every allocation. It has
entered a script that pops its own closure; a second pop finds the stack empty. -/
def popping : Machine :=
  let diagnostics := { traceExecution := true, stressCollections := true }
  let m := start { framesMax := 1, slotsPerFrame := 2, diagnostics } default .zero
  let script : Chunk Value := ⟨#[Opcode.pop.byte, Opcode.pop.byte, 0xff], #[7], #[.object ⟨1⟩]⟩
  let (function, m) := m.allocate (.function (.script script)) []
  (m.left (enter function) none).left Exec.step none

theorem never_breaks_popping :
    popping.Reachable .issued ∧ popping.frames ≠ [] ∧
    Exec.step none popping =
      .error (.failed (.malformed .stackUnderflow)) (popping.left Exec.step none) ∧
    (popping.left Exec.step none).Ends (.failed (.malformed .stackUnderflow)) ∧
    (popping.left Exec.step none).heap.Secure ∧
    (popping.globals.insertAll [(popping.initKey, .nil)]).Searchable popping.initKey ∧
    (∃ events, Exec.traceInstruction none popping = .ok ⟨⟩ { popping with events }) ∧
    (popping.heap.textWithin popping.heap.size ⟨9⟩).isSome := by
  have reachable : popping.Reachable .issued := by
    refine (((Reachable.start _ _ _).allocate _ [] ?_).left_enter (by decide +kernel)).left_step
      (honest_of_nextCallee? (by decide +kernel)) (by decide +kernel)
    change ∀ h : Handle, h ∈ _ → h.index < Array.size _
    decide +kernel
  have framed : popping.frames ≠ [] := by decide +kernel
  have stops : Exec.step none popping = .error (.failed (.malformed .stackUnderflow))
      (popping.left Exec.step none) := eq_error_of_stopped? (by decide +kernel)
  have live : popping.heap.key? popping.initKey.handle = some popping.initKey := by decide +kernel
  obtain ⟨within, step, -, ends, -, -, tables, tracing, texts⟩ := reachable.never_breaks
  refine ⟨reachable, framed, stops, ends framed _ _ stops, (within _ (step none)).2.2,
    tables _ .globals _ _ (fun e mem => ?_) live, tracing framed none, texts nofun ⟨9⟩⟩
  obtain rfl : e = (popping.initKey, .nil) := List.mem_singleton.mp mem
  exact live

end Machine

end ScriptMachine
