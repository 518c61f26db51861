/-
# Nothing dangles

The machines that a host can bring about: it starts a machine, defines host
functions, interns texts, puts functions into the heap, collects, and enters
functions; then the machine takes steps until it stops. The custody says what
the host promises about the constants and names of functions when these are put
into the heap, and about the results of host functions.

All these machines are intact. If the host promises live handles, then no
handle dangles, neither at the boundary of two instructions nor right after an
object has been allocated within one. A promise about constants and names alone
would not do: a host function gives what it likes, and what it gives is put on
the stack as it is.

## Main definitions

* `Machine.Reachable` — the machines that a host can bring about
* `Machine.NothingDangles` — all handles stand for what they should

## Main results

* `Reachable.intact` — these machines are intact
* `Reachable.runChunk` — running a chunk brings about such a machine
* `Reachable.nothing_dangles` — no handle is used after its object was freed
* `dangles_straying` — unless a host function has given it
-/

import ScriptMachine.Proofs.Machine.Instructions

namespace ScriptMachine

open Heap

namespace Machine

variable {c : Custody} {m m' : Machine} {stop : Stop} {h : Handle}

/-- The machines that a host can bring about, if it promises what the custody says. -/
inductive Reachable (c : Custody) : Machine → Prop
  | start (config : Config) (sink : Sink) (uptime : Number) :
    Reachable c (start config sink uptime)
  | defineNative {m : Machine} (reachable : Reachable c m) (native : Native) :
    Reachable c (m.defineNative native)
  | intern {m : Machine} (reachable : Reachable c m) (text : String) (extra : List Handle) :
    Reachable c (m.intern text extra).2
  /-- The host puts a function into the heap. -/
  | allocate {m : Machine} (reachable : Reachable c m) (f : Function) (extra : List Handle)
    (promised : ∀ h ∈ (Object.function f).references, m.heap.Holds c h) :
    Reachable c (m.allocate (.function f) extra).2
  | collect {m : Machine} (reachable : Reachable c m) : Reachable c m.collect
  /-- Time passes. -/
  | tick {m : Machine} (reachable : Reachable c m) (uptime : Number) :
    Reachable c { m with uptime }
  /-- The host has a function run. -/
  | enter {m m' : Machine} (reachable : Reachable c m) (h : Handle)
    (ran : enter h none m = .ok ⟨⟩ m') : Reachable c m'
  /-- The function cannot be run. -/
  | refuse {m m' : Machine} {stop : Stop} (reachable : Reachable c m) (h : Handle)
    (ran : enter h none m = .error stop m') : Reachable c (m'.conclude stop).2
  | step {m m' : Machine} (reachable : Reachable c m) (honest : m.Honest c)
    (ran : Exec.step none m = .ok ⟨⟩ m') : Reachable c m'
  /-- The run ends. -/
  | stop {m m' : Machine} {stop : Stop} (reachable : Reachable c m) (honest : m.Honest c)
    (ran : Exec.step none m = .error stop m') : Reachable c (m'.conclude stop).2

/-- A machine without a frame stops at once. -/
theorem step_of_frames_eq_nil {watch : Option Handle} (idle : m.frames = []) :
    Exec.step watch m = .error (.broken .noFrame) m := by
  obtain ⟨⟨_, _, _, _, tracing, _, _⟩, _, _, _, _, _, _, _, _, _⟩ := m
  cases idle
  cases tracing <;> rfl

/-- A machine without a frame does not get through a step. -/
theorem framed_of_step (ran : Exec.step none m = .ok ⟨⟩ m') : m.frames ≠ [] := by
  intro idle
  rw [step_of_frames_eq_nil idle] at ran
  cases ran

/-- All machines that a host can bring about are intact. -/
theorem Reachable.intact (reachable : m.Reachable c) : m.Intact c := by
  induction reachable with
  | start config sink uptime => exact intact_start c config sink uptime
  | defineNative _ native ih => exact ih.defineNative native
  | intern _ text extra ih => exact ih.intern text extra
  -- The host has promised the name and the constants.
  | allocate _ f extra promised ih =>
    refine ih.allocate extra nofun nofun ⟨fun name eq => promised name ?_, fun v mem h eq =>
      promised h ?_⟩
    · exact List.mem_append_left _ (Option.mem_toList.mpr eq)
    · exact List.mem_append_right _ (List.mem_filterMap.mpr ⟨v, Array.mem_toList_iff.mpr mem, eq⟩)
  | collect _ ih => exact ih.collect
  | tick _ uptime ih => exact ih.withUptime uptime
  | enter _ h ran ih => exact ((Exec.Ensures.enter ih).of_ok ran).1
  | refuse _ h ran ih => exact ((Exec.Ensures.enter ih).of_error ran).intact.conclude _
  | step _ honest ran ih => exact ((Exec.Ensures.step ih (framed_of_step ran) honest).of_ok ran).1
  | @stop m m' stop _ honest ran ih =>
    by_cases idle : m.frames = []
    · rw [step_of_frames_eq_nil idle] at ran
      cases ran
      exact ih.conclude _
    · exact ((Exec.Ensures.step ih idle honest).of_error ran).intact.conclude _

/-! ## Runs -/

/-- The property holds of the machine and after each of the next steps, as many as given. -/
def Along (p : Machine → Prop) : (bound : Nat) → Machine → Prop
  | 0, _ => True
  | bound + 1, m => p m ∧ ∀ m', Exec.step none m = .ok ⟨⟩ m' → Along p bound m'

/-- Steps lead to machines that a host can bring about, once a stop has been dealt with. -/
theorem Reachable.steps {bound : Nat} (reachable : m.Reachable c)
    (honest : m.Along (Honest c) bound) :
    (∀ m', m.steps bound = (none, m') → m'.Reachable c) ∧
    ∀ stop m', m.steps bound = (some stop, m') → (m'.conclude stop).2.Reachable c := by
  induction bound generalizing m with
  | zero =>
    rw [Machine.steps]
    constructor
    · intro m' eq
      cases eq
      exact reachable
    · intro stop m' eq
      cases eq
  | succ bound ih =>
    obtain ⟨here, later⟩ := honest
    rw [Machine.steps]
    cases ran : Exec.step none m with
    | ok _ m' => exact ih (reachable.step here ran) (later m' ran)
    | error stop m' =>
      constructor
      · intro m'' eq
        cases eq
      · intro stop' m'' eq
        cases eq
        exact reachable.stop here ran

theorem Reachable.runFunction {bound : Nat} (reachable : m.Reachable c)
    (honest : ∀ m', Machine.enter h none m = .ok ⟨⟩ m' → m'.Along (Honest c) bound) :
    (m.runFunction bound h).2.Reachable c := by
  unfold Machine.runFunction
  split
  next stop m' ran => exact reachable.refuse h ran
  next m' ran =>
    obtain ⟨unfinished, stopped⟩ := (reachable.enter h ran).steps (honest m' ran)
    split
    next m'' eq => exact unfinished m'' eq
    next stop m'' eq => exact stopped stop m'' eq

/-- The machine that has put a chunk into its heap and entered it, if it can be entered. -/
def entered? (m : Machine) (chunk : Chunk Value) : Option Machine :=
  let (function, m) := m.allocate (.function (.script chunk)) []
  match enter function none m with
  | .ok _ m => some m
  | .error _ _ => none

theorem entered?_of_enter {chunk : Chunk Value}
    (ran : Machine.enter (m.allocate (.function (.script chunk)) []).1 none
      (m.allocate (.function (.script chunk)) []).2 = .ok ⟨⟩ m') : m.entered? chunk = some m' := by
  unfold entered?
  simp only
  rw [ran]

theorem Reachable.allocate_script {chunk : Chunk Value} (reachable : m.Reachable c)
    (promised : ∀ v ∈ chunk.constants, v.Held c m.heap) :
    (m.allocate (.function (.script chunk)) []).2.Reachable c := by
  refine reachable.allocate (.script chunk) [] fun h mem => ?_
  obtain ⟨v, mem, eq⟩ := List.mem_filterMap.mp mem
  exact promised v (Array.mem_toList_iff.mp mem) h eq

/-- Running a chunk leaves a machine that a host can bring about. -/
theorem Reachable.runChunk {bound : Nat} {chunk : Chunk Value} (reachable : m.Reachable c)
    (promised : ∀ v ∈ chunk.constants, v.Held c m.heap)
    (honest : ∀ m', m.entered? chunk = some m' → m'.Along (Honest c) bound) :
    (m.runChunk bound chunk).2.Reachable c :=
  (reachable.allocate_script promised).runFunction fun m' ran => honest m' (entered?_of_enter ran)

/-! ## Handles -/

/-- The table belongs to the machine: it holds the globals, the methods of a class or the fields of
an instance. -/
inductive HasTable (m : Machine) : Table → Prop
  | globals : HasTable m m.globals
  | methods {h name : Handle} {methods : Table} (found : m.heap.get? h = some (.cls name methods)) :
    HasTable m methods
  | fields {h owner : Handle} {fields : Table}
    (found : m.heap.get? h = some (.inst owner fields)) : HasTable m fields

/-- All handles stand for live objects of the kinds that they should be. -/
structure NothingDangles (m : Machine) : Prop where
  stack : ∀ v ∈ m.stack, ∀ h, v.handle? = some h → m.heap.contains h
  closures : ∀ f ∈ m.frames, ∃ function upvalues reserved,
    m.heap.get? f.closure = some (.closure function upvalues reserved)
  functions : ∀ f ∈ m.frames, ∃ function, m.heap.get? f.function = some (.function function)
  openUpvalues : ∀ e ∈ m.openUpvalues, m.heap.contains e.upvalue
  globals : ∀ h ∈ Object.tableReferences m.globals, m.heap.contains h
  initKey : m.heap.contains m.initKey.handle
  objects : ∀ h o, m.heap.get? h = some o → ∀ k ∈ o.references, m.heap.contains k
  keys : ∀ t, m.HasTable t → ∀ key v, (key, v) ∈ t.entries →
    ∃ s, m.heap.get? key.handle = some (.string s) ∧ key.hash = Hash.ofText s.text

theorem key_of_key? {key : Key} (found : m.heap.key? key.handle = some key) :
    ∃ s, m.heap.get? key.handle = some (.string s) ∧ key.hash = Hash.ofText s.text := by
  obtain ⟨-, text, listed, hash⟩ := key?_eq_some_iff.mp found
  obtain ⟨s, live, rfl⟩ := text?_eq_some_iff.mp listed
  exact ⟨s, live, hash⟩

theorem Sound.nothingDangles (sound : m.Sound .live) : m.NothingDangles where
  stack := sound.stack
  closures f mem := by
    obtain ⟨o, found, kind⟩ := kind?_eq_some_iff.mp (sound.closures f mem)
    cases o <;> cases kind
    exact ⟨_, _, _, found⟩
  functions f mem := by
    obtain ⟨function, -, found⟩ := function?_of_kind? (sound.functions f mem)
    exact ⟨function, found⟩
  openUpvalues e mem := contains_of_kind? (sound.captured e mem)
  globals h mem := sound.globals.contains mem
  initKey := contains_of_kind? (kind?_of_key? sound.initKey)
  objects h o found k mem := (sound.heap.object h o found).contains mem
  keys t has key v mem := by
    cases has with
    | globals => exact key_of_key? (sound.globals.keys key v mem)
    | methods found => exact key_of_key? ((sound.heap.object _ _ found).2.keys key v mem)
    | fields found => exact key_of_key? ((sound.heap.object _ _ found).2.keys key v mem)

/-- If nothing dangles, then the handles of a machine are as if the host had promised live ones. -/
theorem Intact.live (intact : m.Intact .issued) (nothing : m.NothingDangles) : m.Intact .live where
  heap := ⟨intact.heap.clean, intact.heap.canonical, fun h o found =>
    (intact.heap.object h o found).live (nothing.objects h o found)⟩
  stack := nothing.stack
  closures := intact.closures
  functions := intact.functions
  captured := intact.captured
  globals := intact.globals.live nothing.globals
  initKey := intact.initKey
  sorted := intact.sorted
  listed := intact.listed
  complete := intact.complete

/-- No handle is used after its object was freed: nothing dangles in a machine that a host can
bring about with live handles, those that host functions give included. Nor does anything dangle
where a step stops, or right after a step or the entry of a function has allocated an object. -/
theorem Reachable.nothing_dangles (reachable : m.Reachable .live) :
    m.NothingDangles ∧
    (m.Honest .live → ∀ watch stop m', Exec.step watch m = .error stop m' → m'.NothingDangles) ∧
    ∀ h watch stop m', Machine.enter h watch m = .error stop m' → m'.NothingDangles := by
  have intact := reachable.intact
  refine ⟨intact.nothingDangles, fun honest watch stop m' ran => ?_, fun h watch stop m' ran => ?_⟩
  -- A step may stop right after it has allocated an object; the machine is sound even there.
  · by_cases idle : m.frames = []
    · rw [step_of_frames_eq_nil idle] at ran
      cases ran
      exact intact.nothingDangles
    · exact ((Exec.Ensures.step intact idle honest).of_error ran).sound.nothingDangles
  · exact ((Exec.Ensures.enter intact).of_error ran).sound.nothingDangles

/-- The machine that an action leaves. -/
def left (m : Machine) (x : Exec Unit) (watch : Option Handle) : Machine :=
  match x watch m with
  | .ok _ m => m
  | .error _ m => m

/-- Why an action stops, if it does. -/
def stopped? (m : Machine) (x : Exec Unit) (watch : Option Handle) : Option Stop :=
  match x watch m with
  | .ok _ _ => none
  | .error stop _ => some stop

theorem eq_ok_of_stopped? {x : Exec Unit} {watch : Option Handle}
    (goes : m.stopped? x watch = none) : x watch m = .ok ⟨⟩ (m.left x watch) := by
  unfold stopped? at goes
  unfold left
  cases ran : x watch m with
  | ok _ _ => rfl
  | error _ _ => simp [ran] at goes

theorem eq_error_of_stopped? {x : Exec Unit} {watch : Option Handle}
    (stops : m.stopped? x watch = some stop) : x watch m = .error stop (m.left x watch) := by
  unfold stopped? at stops
  unfold left
  cases ran : x watch m with
  | ok _ _ => simp [ran] at stops
  | error _ _ => simpa [ran] using stops

theorem Reachable.left_enter (reachable : m.Reachable c) {function : Handle}
    (goes : m.stopped? (Machine.enter function) none = none) :
    (m.left (Machine.enter function) none).Reachable c :=
  reachable.enter function (eq_ok_of_stopped? goes)

theorem Reachable.left_step (reachable : m.Reachable c) (honest : m.Honest c)
    (goes : m.stopped? Exec.step none = none) : (m.left Exec.step none).Reachable c :=
  reachable.step honest (eq_ok_of_stopped? goes)

/-- A machine that collects before every allocation. Its script has put the host function `last` and
a function on the stack, and is about to call the one with the other. -/
def calling : Machine :=
  let m := start { diagnostics := { stressCollections := true } } default .zero
  let (name, m) := (m.defineNative (.last "last")).intern "last" []
  let (f, m) := m.allocate (.function ⟨none, 0, 1, default⟩) []
  let script : Chunk Value :=
    ⟨#[Opcode.getGlobal.byte, 1, Opcode.constant.byte, 2, Opcode.call.byte, 1,
      Opcode.closure.byte, 2, 1, 1], .replicate 10 1, #[.nil, .object name, .object f]⟩
  let (function, m) := m.allocate (.function (.script script)) []
  ((m.left (enter function) none).left Exec.step none).left Exec.step none

/-- The host function has given back the function. The script goes on to make a closure of it over
the variable that holds it. -/
def capturing : Machine := calling.left Exec.step none

/-- The result of the host function is live. Within the closure instruction the captured variable
has just been allocated. -/
theorem nothing_dangles_capturing :
    calling.Reachable .live ∧ calling.Honest .live ∧ calling.given? = some (.object ⟨5⟩) ∧
    capturing.Reachable .live ∧ capturing.stack = #[.object ⟨7⟩, .object ⟨5⟩] ∧
    capturing.Honest .live ∧
    ∃ m', Exec.step (some ⟨8⟩) capturing = .error .paused m' ∧ m'.heap.contains ⟨8⟩ ∧
      capturing.NothingDangles ∧ m'.NothingDangles := by
  have reachable : calling.Reachable .live := by
    refine .left_step (.left_step (.left_enter ?_ ?_) ?_ ?_) ?_ ?_
    · refine .allocate (.allocate (.intern ?_ _ _) _ [] ?_) _ [] ?_
      · exact (Reachable.start _ _ _).defineNative _
      · exact fun h mem => absurd mem List.not_mem_nil
      · change ∀ h ∈ _, Heap.contains _ h = true
        decide +kernel
    all_goals decide +kernel
  have honest : calling.Honest .live := by decide +kernel
  have reachable' : capturing.Reachable .live := reachable.left_step honest (by decide +kernel)
  have honest' : capturing.Honest .live := by decide +kernel
  have paused :
      Exec.step (some ⟨8⟩) capturing = .error .paused (capturing.left Exec.step (some ⟨8⟩)) :=
    eq_error_of_stopped? (by decide +kernel)
  obtain ⟨sound, within, -⟩ := reachable'.nothing_dangles
  exact ⟨reachable, honest, by decide +kernel, reachable', by decide +kernel, honest', _, paused,
    by decide +kernel, sound, within honest' _ _ _ paused⟩

/-- A host has kept the third handle, that of a string that has been freed, and provides a function
that gives this handle. A script is about to call it. -/
def straying : Machine :=
  let m := ((start {} default .zero).intern "stale" []).2.collect
  let (name, m) := (m.defineNative ⟨"stray", fun _ _ => .object ⟨3⟩⟩).intern "stray" []
  let script : Chunk Value :=
    ⟨#[Opcode.getGlobal.byte, 1, Opcode.call.byte, 0], .replicate 4 1, #[.nil, .object name]⟩
  let (function, m) := m.allocate (.function (.script script)) []
  (m.left (enter function) none).left Exec.step none

/-- Live constants and names are not enough. All of them are live, but the host function gives a
handle whose object has been freed, and after the call this handle lies on the stack. -/
theorem dangles_straying :
    straying.Reachable .live ∧ ¬ straying.Honest .live ∧
    ∃ m', Exec.step none straying = .ok ⟨⟩ m' ∧ .object ⟨3⟩ ∈ m'.stack ∧
      ¬ m'.heap.contains ⟨3⟩ ∧ ¬ m'.NothingDangles := by
  have reachable : straying.Reachable .live := by
    refine .left_step (.left_enter ?_ ?_) ?_ ?_
    · refine .allocate (.intern (.defineNative ?_ _) _ _) _ [] ?_
      · exact ((Reachable.start _ _ _).intern _ _).collect
      · change ∀ h ∈ _, Heap.contains _ h = true
        decide +kernel
    all_goals decide +kernel
  have ran : Exec.step none straying = .ok ⟨⟩ (straying.left Exec.step none) :=
    eq_ok_of_stopped? (by decide +kernel)
  have there : .object ⟨3⟩ ∈ (straying.left Exec.step none).stack := by decide +kernel
  have freed : ¬ (straying.left Exec.step none).heap.contains ⟨3⟩ := by decide +kernel
  exact ⟨reachable, by decide +kernel, _, ran, there, freed,
    fun sound => freed (sound.stack _ there _ rfl)⟩

end Machine

end ScriptMachine
