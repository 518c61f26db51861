/-
# Collections cannot be observed

Two machines with the same limits that correspond, and in which nothing dangles,
run corresponding chunks alike, however their settings make them collect. The
first instructions are the same, as many as one likes; they print the same and
leave corresponding machines; and both runs end with corresponding results, or
with the same error.

Host functions are called by either machine on its own, so they have to respect
the correspondence. `clock` does not, as it looks at the time.

## Main definitions

* `Machine.executed`, `Machine.instructionsOf` — the first instructions of a run
* `Outcome.Matches` — runs that end alike

## Main results

* `Related.steps` — machines in step stay so
* `Corresponds.collections_unobservable` — corresponding machines run chunks alike
-/

import ScriptMachine.Proofs.Correspondence.Instructions
import ScriptMachine.Proofs.Machine.Reachable

namespace ScriptMachine

open Heap

/-- The outcomes are equal up to the pairing. None of them is a fault of the machine. -/
inductive Outcome.Matches (p : Pairing) : Outcome → Outcome → Prop
  | value {v w : Value} (same : v.Matches p w) : Matches p (.value v) (.value w)
  | runtimeError (e : RuntimeError) : Matches p (.runtimeError e) (.runtimeError e)
  | unfinished : Matches p .unfinished .unfinished

namespace Machine

variable {p : Pairing} {origin : Origin} {m m₁ m₂ : Machine} {h₁ h₂ : Handle} {stop₁ stop₂ : Stop}
  {bound : Nat} {chunk₁ chunk₂ : Chunk Value}

/-! ## The end of a run -/

/-- Related machines give the same backtrace. -/
theorem Related.backtrace? (related : Related origin p m₁ m₂) :
    ∃ entries, m₁.backtrace? = some entries ∧ m₂.backtrace? = some entries := by
  have entry (f₁ f₂ : Frame) (same : f₁.Matches (Links p m₁ m₂) f₂)
      (kind : m₁.heap.kind? f₁.function = some .function) :
      ∃ e, backtraceEntry? m₁ f₁ = some e ∧ backtraceEntry? m₂ f₂ = some e := by
    obtain ⟨g₁, found₁, -⟩ := function?_of_kind? kind
    obtain ⟨g₂, found₂, -⟩ := function?_of_kind? (related.heaps.kind? same.function ▸ kind)
    have functions := related.heaps.function? same.function
    rw [found₁, found₂] at functions
    cases functions with
    | some functions =>
      refine ⟨⟨(g₁.chunk.line? (f₁.ip - 1)).getD 0, m₁.heap.functionName? g₁⟩, ?_, ?_⟩
      · unfold backtraceEntry?
        rw [found₁]
        rfl
      · unfold backtraceEntry?
        rw [found₂, related.heaps.functionName? functions, ← same.ip,
          Chunk.line?, functions.chunk.lines]
        rfl
  have linked := related.linked.frames
  have kinds := related.intact₁.functions
  unfold Machine.backtrace?
  generalize m₁.frames = frames₁ at linked kinds
  generalize m₂.frames = frames₂ at linked
  -- By induction on the frames, which correspond one by one.
  induction linked with
  | nil => exact ⟨[], rfl, rfl⟩
  | @cons f₁ f₂ rest₁ rest₂ same _ ih =>
    obtain ⟨e, eq₁, eq₂⟩ := entry f₁ f₂ same (kinds f₁ List.mem_cons_self)
    obtain ⟨entries, eqs₁, eqs₂⟩ := ih fun f mem => kinds f (List.mem_cons_of_mem _ mem)
    refine ⟨e :: entries, ?_, ?_⟩
    · rw [List.mapM_cons, eq₁, eqs₁]
      rfl
    · rw [List.mapM_cons, eq₂, eqs₂]
      rfl

theorem Related.record (related : Related origin p m₁ m₂) (event : ExecutionEvent) :
    Related origin p (m₁.record event) (m₂.record event) := by
  have some_events (m : Machine) : ∃ events, m.record event = { m with events } := by
    unfold Machine.record
    split
    · exact ⟨_, rfl⟩
    · exact ⟨m.events, rfl⟩
  obtain ⟨events₁, eq₁⟩ := some_events m₁
  obtain ⟨events₂, eq₂⟩ := some_events m₂
  rw [eq₁, eq₂]
  exact related.withEvents events₁ events₂

/-- Runs that stop alike end alike. -/
theorem ends_alike (stopped : Exec.Stopped origin stop₁ stop₂ m₁ m₂) :
    ∃ p, Related origin p (m₁.conclude stop₁).2 (m₂.conclude stop₂).2 ∧
      (m₁.conclude stop₁).1.Matches (Links p (m₁.conclude stop₁).2 (m₂.conclude stop₂).2)
        (m₂.conclude stop₂).1 := by
  obtain ⟨p, related, same⟩ := stopped
  cases same with
  | finished same => exact ⟨p, related, .value same⟩
  -- The same error is reported from the same places, and both machines are brought to rest.
  | failed kind =>
    obtain ⟨entries, eq₁, eq₂⟩ := related.backtrace?
    refine ⟨p, ?_, ?_⟩
    · simp only [conclude, eq₁, eq₂]
      exact (related.record _).reset
    · simp only [conclude, eq₁, eq₂]
      exact .runtimeError _

/-! ## Steps -/

/-- The instructions that the machine carries out, at most as many as `bound`. The last one may stop
the machine. -/
def executed : (bound : Nat) → Machine → List Instruction
  | 0, _ => []
  | bound + 1, m =>
    match m.next? with
    | none => []
    | some instruction =>
      instruction :: match Exec.step none m with
        | .ok _ m => executed bound m
        | .error _ _ => []

/-- The first instructions of the run of a function. -/
def instructionsFrom (bound : Nat) (m : Machine) (function : Handle) : List Instruction :=
  match enter function none m with
  | .ok _ m => m.executed bound
  | .error _ _ => []

/-- The first instructions of the run of a chunk. -/
def instructionsOf (bound : Nat) (m : Machine) (chunk : Chunk Value) : List Instruction :=
  let (function, m) := m.allocate (.function (.script chunk)) []
  m.instructionsFrom bound function

theorem Related.next? (related : Related origin p m₁ m₂) : m₁.next? = m₂.next? := by
  have linked := related.linked.frames
  unfold Machine.next?
  generalize m₁.frames = frames₁ at linked
  generalize m₂.frames = frames₂ at linked
  cases linked with
  | nil => rfl
  | @cons f₁ f₂ _ _ same _ =>
    have functions := related.heaps.function? same.function
    simp only [List.head?_cons, Option.bind_eq_bind, Option.bind_some]
    generalize m₁.heap.function? f₁.function = g₁ at functions
    generalize m₂.heap.function? f₂.function = g₂ at functions
    cases functions with
    | none => rfl
    | some functions => simp only [Option.bind_some, functions.chunk.code, same.ip]

/-- Both runs go on, or both have stopped alike. -/
def Together (origin : Origin) (run₁ run₂ : Option Stop × Machine) : Prop :=
  match run₁, run₂ with
  | (none, m₁), (none, m₂) => ∃ p, Related origin p m₁ m₂
  | (some stop₁, m₁), (some stop₂, m₂) => Exec.Stopped origin stop₁ stop₂ m₁ m₂
  | _, _ => False

/-- Machines in step stay so, and carry out the same instructions. -/
theorem Related.steps (related : Related origin p m₁ m₂) (framed : m₁.frames ≠ [])
    (respectful : m₁.Along Respectful bound) :
    m₁.executed bound = m₂.executed bound ∧ Together origin (m₁.steps bound) (m₂.steps bound) := by
  induction bound generalizing p m₁ m₂ with
  | zero => exact ⟨rfl, p, related⟩
  | succ bound ih =>
    obtain ⟨here, later⟩ := respectful
    unfold executed Machine.steps
    rw [related.next?]
    -- One step leads to machines in step, or stops both.
    rcases (Exec.Agree.step related framed here).cases with
      ⟨_, _, m₁', m₂', ran₁, ran₂, ⟨q, related'⟩, framed'⟩ | ⟨_, _, m₁', m₂', ran₁, ran₂, stopped⟩
    · obtain ⟨same, together⟩ := ih related' framed' (later m₁' ran₁)
      simp only [ran₁, ran₂, same]
      exact ⟨trivial, together⟩
    · simp only [ran₁, ran₂]
      exact ⟨trivial, stopped⟩

/-! ## Runs -/

/-- Related machines run linked functions alike. -/
theorem Related.runFunction (related : Related origin p m₁ m₂) (linked : Links p m₁ m₂ h₁ h₂)
    (respectful : ∀ m, Machine.enter h₁ none m₁ = .ok ⟨⟩ m → m.Along Respectful bound) :
    m₁.instructionsFrom bound h₁ = m₂.instructionsFrom bound h₂ ∧
    ∃ q, Related origin q (m₁.runFunction bound h₁).2 (m₂.runFunction bound h₂).2 ∧
      (m₁.runFunction bound h₁).1.Matches
        (Links q (m₁.runFunction bound h₁).2 (m₂.runFunction bound h₂).2)
        (m₂.runFunction bound h₂).1 := by
  unfold instructionsFrom Machine.runFunction
  -- Entering may fail already, where the stack is full.
  rcases (Exec.Agree.enter related linked).cases with
    ⟨_, _, m₁', m₂', ran₁, ran₂, ⟨q, related'⟩, framed⟩ | ⟨_, _, m₁', m₂', ran₁, ran₂, stopped⟩
  · obtain ⟨same, together⟩ := related'.steps framed (respectful m₁' ran₁)
    simp only [ran₁, ran₂]
    refine ⟨same, ?_⟩
    unfold Together at together
    generalize m₁'.steps bound = run₁ at together ⊢
    generalize m₂'.steps bound = run₂ at together ⊢
    obtain ⟨_ | stop₁, m₁''⟩ := run₁ <;> obtain ⟨_ | stop₂, m₂''⟩ := run₂
    · obtain ⟨q, related''⟩ := together
      exact ⟨q, related'', .unfinished⟩
    · exact together.elim
    · exact together.elim
    · exact ends_alike together
  · simp only [ran₁, ran₂]
    exact ⟨trivial, ends_alike stopped⟩

/-- Matching chunks become linked functions. -/
theorem Related.script (related : Related origin p m₁ m₂)
    (chunks : chunk₁.Matches (Links p m₁ m₂) chunk₂) :
    ∃ q, Related origin q (m₁.allocate (.function (.script chunk₁)) []).2
        (m₂.allocate (.function (.script chunk₂)) []).2 ∧
      Links q (m₁.allocate (.function (.script chunk₁)) []).2
        (m₂.allocate (.function (.script chunk₂)) []).2
        (m₁.allocate (.function (.script chunk₁)) []).1
        (m₂.allocate (.function (.script chunk₂)) []).1 := by
  -- The constants are live, as the chunks match by links.
  have held₁ (v : Value) (mem : v ∈ chunk₁.constants) : v.Held .live m₁.heap := by
    obtain ⟨w, same⟩ := chunks.constants.exists_right mem
    exact (held_of_linked same).1
  have held₂ (w : Value) (mem : w ∈ chunk₂.constants) : w.Held .live m₂.heap := by
    obtain ⟨v, same⟩ := chunks.constants.exists_left mem
    exact (held_of_linked same).2
  have allocated₁ := allocated_allocate related.intact₁.heap.clean (.function (.script chunk₁))
    (m₁.roots ++ [])
  have allocated₂ := allocated_allocate related.intact₂.heap.clean (.function (.script chunk₂))
    (m₂.roots ++ [])
  refine ⟨_, related.allocate [] [] (.function ⟨.none, rfl, rfl, chunks⟩) nofun nofun ⟨nofun, held₁⟩
    ⟨nofun, held₂⟩, .inr ⟨rfl, rfl⟩, ?_, ?_⟩
  · exact contains_of_get? allocated₁.get?
  · exact contains_of_get? allocated₂.get?

/-- Corresponding machines with the same limits, in which nothing dangles, are where two runs may
begin. -/
theorem Corresponds.related (corresponds : Corresponds p m₁ m₂) (intact₁ : m₁.Intact .live)
    (intact₂ : m₂.Intact .live) (framesMax : m₁.config.framesMax = m₂.config.framesMax)
    (slotsPerFrame : m₁.config.slotsPerFrame = m₂.config.slotsPerFrame)
    (room : m₁.sink.room = m₂.sink.room) :
    Related ⟨p, m₁.sink.written, m₂.sink.written⟩ p m₁ m₂ where
  toParallel := corresponds.toParallel
  intact₁ := intact₁
  intact₂ := intact₂
  heaps := by
    refine ⟨intact₁.heap, intact₂.heap, ?_, ?_, ⟨?_, ?_⟩, ?_⟩
    · intro h₁ h₂ paired
      obtain ⟨o₁, o₂, found₁, found₂, -⟩ := corresponds.objects h₁ h₂ paired
      exact lt_size_of_contains (contains_of_get? found₁)
    · intro h₁ h₂ paired
      obtain ⟨o₁, o₂, found₁, found₂, -⟩ := corresponds.objects h₁ h₂ paired
      exact lt_size_of_contains (contains_of_get? found₂)
    · intro h k k' linked linked'
      exact corresponds.unique.right h k k' linked.paired linked'.paired
    · intro h h' k linked linked'
      exact corresponds.unique.left h h' k linked.paired linked'.paired
    · intro h₁ h₂ o₁ o₂ paired found₁ found₂
      obtain ⟨o₁', o₂', found₁', found₂', same⟩ := corresponds.objects h₁ h₂ paired
      obtain rfl := Option.some.inj (found₁.symm.trans found₁')
      obtain rfl := Option.some.inj (found₂.symm.trans found₂')
      exact same
  extends_ _ _ paired := paired
  framesMax := framesMax
  slotsPerFrame := slotsPerFrame
  room := room
  printed := ⟨.empty, by simp, by simp⟩

/-- Collections cannot be observed. Two machines with the same limits and the same room to print,
which may collect at any times and record anything, correspond under a bijection of live handles;
nothing dangles in them. When they run chunks that correspond, calling only host functions that
respect correspondences, then the first instructions are the same. They print the same bytes, and
lead to machines that correspond under a bijection that extends the one before to all handles that
are still live. If the runs are over by then, they have given corresponding values, or the same
error with the same backtrace. -/
theorem Corresponds.collections_unobservable (corresponds : Corresponds p m₁ m₂)
    (reachable₁ : m₁.Reachable .issued) (reachable₂ : m₂.Reachable .issued)
    (nothing₁ : m₁.NothingDangles) (nothing₂ : m₂.NothingDangles)
    (framesMax : m₁.config.framesMax = m₂.config.framesMax)
    (slotsPerFrame : m₁.config.slotsPerFrame = m₂.config.slotsPerFrame)
    (room : m₁.sink.room = m₂.sink.room) (chunks : chunk₁.Matches p chunk₂)
    (respectful : ∀ m, m₁.entered? chunk₁ = some m → m.Along Respectful bound) :
    m₁.instructionsOf bound chunk₁ = m₂.instructionsOf bound chunk₂ ∧
    (∃ bytes, (m₁.runChunk bound chunk₁).2.sink.written = m₁.sink.written ++ bytes ∧
      (m₂.runChunk bound chunk₂).2.sink.written = m₂.sink.written ++ bytes) ∧
    ∃ q, Corresponds q (m₁.runChunk bound chunk₁).2 (m₂.runChunk bound chunk₂).2 ∧
      (m₁.runChunk bound chunk₁).1.Matches q (m₂.runChunk bound chunk₂).1 ∧
      ∀ h₁ h₂, p h₁ h₂ → (m₁.runChunk bound chunk₁).2.heap.contains h₁ →
        (m₂.runChunk bound chunk₂).2.heap.contains h₂ → q h₁ h₂ := by
  have related := corresponds.related (reachable₁.intact.live nothing₁)
    (reachable₂.intact.live nothing₂) framesMax slotsPerFrame room
  -- What the bijection pairs is live.
  have live {h k : Handle} (paired : p h k) : Links p m₁ m₂ h k := by
    obtain ⟨o₁, o₂, found₁, found₂, -⟩ := corresponds.objects h k paired
    exact ⟨paired, contains_of_get? found₁, contains_of_get? found₂⟩
  have constants := chunks.constants.imp fun _ _ _ _ same =>
    same.imp fun h k _ _ paired => live paired
  -- The script is a new object in both heaps, and linked.
  obtain ⟨q, related, linked⟩ := related.script ⟨chunks.code, chunks.lines, constants⟩
  obtain ⟨same, q', related', ends⟩ := related.runFunction linked fun m ran => respectful m (by
    unfold entered?
    simp only
    rw [ran])
  refine ⟨same, related'.printed, _, related'.corresponds, ends, ?_⟩
  intro h₁ h₂ paired live₁ live₂
  exact ⟨related'.extends_ h₁ h₂ paired, live₁, live₂⟩

/-- New machines with `clock` correspond, whatever their settings are besides the limits. -/
theorem related_start {config₁ config₂ : Config} {sink₁ sink₂ : Sink} (uptime₁ uptime₂ : Number)
    (framesMax : config₁.framesMax = config₂.framesMax)
    (slotsPerFrame : config₁.slotsPerFrame = config₂.slotsPerFrame)
    (room : sink₁.room = sink₂.room) :
    ∃ p, Related ⟨fun _ _ => False, sink₁.written, sink₂.written⟩ p
      (start config₁ sink₁ uptime₁) (start config₂ sink₂ uptime₂) := by
  obtain ⟨p, related⟩ := related_blank uptime₁ uptime₂ framesMax slotsPerFrame room
  exact related.defineNative .clock

/-- No value is called within the next steps, as many as given. -/
def callsNothing : (bound : Nat) → Machine → Bool
  | 0, _ => true
  | bound + 1, m => m.nextCallee?.isNone && match Exec.step none m with
    | .ok _ m => callsNothing bound m
    | .error _ _ => true

theorem along_of_callsNothing (calls : m.callsNothing bound) : m.Along Respectful bound := by
  induction bound generalizing m with
  | zero => trivial
  | succ bound ih =>
    obtain ⟨here, later⟩ := Bool.and_eq_true_iff.mp calls
    refine ⟨fun callee count native called => ?_, fun m' ran => ih ?_⟩
    · rw [Option.isNone_iff_eq_none.mp here] at called
      cases called
    · rw [ran] at later
      exact later

/-- A machine with a string of its host in its heap. -/
def pooled (config : Config) : Machine := ((start config default .zero).intern "ab" []).2

/-- The settings of a machine that collects before every allocation. -/
def eager : Config := { diagnostics := { stressCollections := true } }

/-- A script that doubles the string twice and makes a class in between. -/
def doubling : Chunk Value where
  code := #[Opcode.constant.byte, 0, Opcode.constant.byte, 0, Opcode.add.byte, Opcode.pop.byte,
    Opcode.newClass.byte, 0, Opcode.pop.byte, Opcode.constant.byte, 0, Opcode.constant.byte, 0,
    Opcode.add.byte, Opcode.ret.byte]
  lines := #[]
  constants := #[.object ⟨3⟩]

/-- A machine that hardly ever collects finds the doubled string again. A machine that collects
before every allocation has freed it by then, and makes it anew under another handle. -/
theorem collections_unobservable_doubling :
    ∃ p, Corresponds p (pooled {}) (pooled eager) ∧ doubling.Matches p doubling ∧
      ((pooled {}).runChunk 10 doubling).1 = .value (.object ⟨6⟩) ∧
      ((pooled eager).runChunk 10 doubling).1 = .value (.object ⟨8⟩) ∧
      ∃ q, Corresponds q ((pooled {}).runChunk 10 doubling).2
        ((pooled eager).runChunk 10 doubling).2 ∧ q ⟨6⟩ ⟨8⟩ := by
  have started : ∃ p, Related _ p (start {} default .zero) (start eager default .zero) :=
    related_start .zero .zero rfl rfl rfl
  obtain ⟨p, started⟩ := started
  -- The two machines pair their strings, which happen to have the same handle.
  have same : ((start {} default .zero).intern "ab" []).1 = ⟨3⟩ := by decide +kernel
  have same' : ((start eager default .zero).intern "ab" []).1 = ⟨3⟩ := by decide +kernel
  have related := started.intern "ab" [] []
  rw [same, same'] at related
  change Related _ (p.join ⟨3⟩ ⟨3⟩) (pooled {}) (pooled eager) at related
  have live : (pooled {}).heap.contains ⟨3⟩ := by decide +kernel
  have live' : (pooled eager).heap.contains ⟨3⟩ := by decide +kernel
  have linked : Links (p.join ⟨3⟩ ⟨3⟩) (pooled {}) (pooled eager) ⟨3⟩ ⟨3⟩ :=
    ⟨.inr ⟨rfl, rfl⟩, live, live'⟩
  have chunks : doubling.Matches (Links (p.join ⟨3⟩ ⟨3⟩) (pooled {}) (pooled eager)) doubling :=
    ⟨rfl, rfl, (Pointwise.empty _).push (.object linked)⟩
  have reachable (c : Custody) (config : Config) : (pooled config).Reachable c :=
    (Reachable.start config default .zero).intern "ab" []
  have nothing (config : Config) : (pooled config).NothingDangles :=
    (reachable .live config).intact.nothingDangles
  have ends : ((pooled {}).runChunk 10 doubling).1 = .value (.object ⟨6⟩) := by decide +kernel
  have ends' : ((pooled eager).runChunk 10 doubling).1 = .value (.object ⟨8⟩) := by decide +kernel
  have calls : ((pooled {}).entered? doubling).all (callsNothing 10) := by decide +kernel
  have respectful : ∀ m, (pooled {}).entered? doubling = some m → m.Along Respectful 10 := by
    intro m entered
    apply along_of_callsNothing
    simpa [entered] using calls
  obtain ⟨-, -, q, corresponds, outcomes, -⟩ := related.corresponds.collections_unobservable
    (reachable .issued {}) (reachable .issued eager) (nothing {}) (nothing eager) rfl rfl rfl chunks
    respectful
  rw [ends, ends'] at outcomes
  refine ⟨_, related.corresponds, chunks, ends, ends', q, corresponds, ?_⟩
  cases outcomes with
  | value same =>
    cases same with
    | object paired => exact paired

end Machine

end ScriptMachine
