/-
# Globals are found by their names

The table of the globals is keyed by handles of strings, and yet a global is
found by the text of its name, whoever spells it out. The strings that name
globals are kept alive by the table, and as long as a string is live no other
one has its text: so whoever interns the text, in whatever script, is given the
same string. It does not matter either how often an assignment has failed for
want of the global, which inserts the name and removes it again.

A chronicle tells what has been stored in globals since the machine was
started, the latest first. Looking a name up in the machine is looking it up in
the chronicle.

## Main definitions

* `Machine.stored?` — what the next instruction stores in a global
* `Machine.Happens` — what happens to a machine, and what is stored by that
* `Machine.Chronicle` — a machine, and all that has been stored in its globals
* `Machine.Tells` — the globals are those of a chronicle

## Main results

* `Sound.tells_insert` — storing a global
* `Happens.tells` — whatever happens, the chronicle keeps up with the globals
* `Chronicle.globals_by_name` — globals have the values that were stored last
-/

import ScriptMachine.Proofs.Machine.Failing

namespace ScriptMachine

open Heap

/-- The instruction stores its operand in a global. -/
def Opcode.storesGlobal : Opcode → Bool
  | .defineGlobal | .setGlobal => true
  | _ => false

theorem Opcode.stays_of_storesGlobal {o : Opcode} (stores : o.storesGlobal) : o.stays := by
  cases o <;> first | rfl | cases stores

namespace Machine

variable {c : Custody} {m m' : Machine} {op : Option Opcode} {h : Handle} {key : Key} {v : Value}
  {name s : String} {index : Nat} {log stored : List (String × Value)}

/-! ## Texts -/

/-- No change alters the text of a string, nor does a new string take the place of an old one. -/
theorem Change.text? (change : m.Change m') (regular : m.Regular)
    (old : h.index < m.heap.cells.size) (found : m'.heap.text? h = some s) :
    m.heap.text? h = some s := by
  have clean := regular.heap.arises.clean
  have retained {after : Heap} (retains : m.heap.Retains after) (found : after.text? h = some s) :
      m.heap.text? h = some s := by
    obtain ⟨t, live, rfl⟩ := text?_eq_some_iff.mp found
    exact text?_eq_some_iff.mpr ⟨t, retains.same h _ old live, rfl⟩
  cases change with
  | allocate object extra => exact retained (allocated_allocate clean _ _).retains found
  | intern text extra => exact retained (retains_intern regular.heap.canonical clean _ _) found
  | collect => exact retained (retains_collect clean _) found
  | modify k f other =>
    obtain ⟨t, live, rfl⟩ := text?_eq_some_iff.mp found
    refine text?_eq_some_iff.mpr ⟨t, ?_, rfl⟩
    rw [get?_modify] at live
    split at live
    next same =>
      obtain ⟨object, before, become⟩ := Option.map_eq_some_iff.mp live
      -- An object that has become a string was the same string before.
      rcases other object (same ▸ before) with unchanged | ⟨-, none⟩
      · rw [before, ← unchanged, become]
      · rw [become] at none
        exact absurd rfl none
    next => exact live
  | recharge k => exact (by rwa [Heap.text?, get?_recharge] at found)
  | push | stack | enter | frames | globals | openUpvalues | sink | events | uptime => exact found

theorem Changes.text? (changes : m.Changes m') (regular : m.Regular)
    (old : h.index < m.heap.cells.size) (found : m'.heap.text? h = some s) :
    m.heap.text? h = some s := by
  induction changes with
  | refl => exact found
  | tail changes change ih =>
    exact ih (change.text? (Changes.regular changes regular)
      (old.trans_le (Changes.grown changes regular)) found)

/-! ## Finding globals -/

/-- The string that an instruction names a global with is the one that its text is looked up as. -/
theorem Sound.global?_eq (sound : m.Sound c) (live : m.heap.key? key.handle = some key)
    (text : m.heap.text? key.handle = some s) : m.global? s = m.globals.get? key :=
  sound.heap.canonical.named?_eq live text m.globals

/-- The globals have the values that are the latest ones under their names. -/
def Tells (m : Machine) (log : List (String × Value)) : Prop := ∀ s, m.global? s = log.lookup s

/-- As long as no global is stored, their names keep their texts. -/
theorem Tells.kept (tells : m.Tells log) (sound : m.Sound c) (sound' : m'.Sound c)
    (regular : m.Regular) (changes : m.Changes m') (globals : m'.globals = m.globals) :
    m'.Tells log := by
  intro s
  rw [← tells s]
  refine sound.global?_congr sound' (fun _ _ => by rw [globals]) (fun key v mem _ => ?_) s
  have old := lt_size_of_contains (contains_of_kind? (kind?_of_key? (sound.globals.keys key v mem)))
  obtain ⟨-, t, found, -⟩ := key?_eq_some_iff.mp (sound'.globals.keys key v (globals ▸ mem))
  rw [found, changes.text? regular old found]

/-- A global that is stored takes the place of one with the same name, and of no other one. -/
theorem Sound.tells_insert (sound : m.Sound c) (tells : m.Tells log)
    (live : m.heap.key? key.handle = some key) (text : m.heap.text? key.handle = some s)
    (heap : m'.heap = m.heap) (globals : m'.globals = (m.globals.insert key v).2) :
    m'.Tells ((s, v) :: log) := by
  intro t
  have inserted := congrFun (sound.globals.named?_insert sound.heap.canonical live text v) t
  rw [← heap, ← globals] at inserted
  refine inserted.trans ?_
  rw [List.lookup_cons]
  by_cases same : t = s
  · rw [same, Function.update_self, beq_self_eq_true]
  · rw [Function.update_of_ne same, beq_eq_false_iff_ne.mpr same, heap]
    exact tells t

theorem Tells.defineNative (tells : m.Tells log) (intact : m.Intact c) (regular : m.Regular)
    (native : Native) : (m.defineNative native).Tells
      ((native.name, .object (m.registered native).1) :: log) := by
  obtain ⟨registered, -, text⟩ := intact.registered native
  have changes : m.Changes (m.registered native).2 :=
    (Changes.one (.intern native.name [])).trans (.one (.allocate (.native native) _ nofun))
  have tells := tells.kept intact.toSound registered.toSound regular changes rfl
  let key : Key := ⟨(m.intern native.name []).1, Hash.ofText native.name⟩
  have live : (m.registered native).2.heap.key? key.handle = some key := key?_of_text? text
  exact registered.toSound.tells_insert tells live text rfl rfl

end Machine

/-! ## Instructions with globals -/

namespace Exec

open Machine

variable {m : Machine} {watch : Option Handle} {key : Key} {v : Value} {index : Nat}

theorem constant_eq {f : Frame} {function : Function} (head : m.frames.head? = some f)
    (found : m.heap.function? f.function = some function)
    (at_ : function.chunk.constant? index = some v) : constant index watch m = .ok v m := by
  refine (bind_eq (function_eq head found) _).trans ?_
  rw [at_]
  rfl

theorem name_eq (named : m.name? index = some key) : name index watch m = .ok key m := by
  obtain ⟨f, head, named⟩ := Option.bind_eq_some_iff.mp named
  obtain ⟨function, found, named⟩ := Option.bind_eq_some_iff.mp named
  obtain ⟨v, at_, live⟩ := Option.bind_eq_some_iff.mp named
  refine (bind_eq (constant_eq head found at_) _).trans ?_
  change orMalformed _ (v.handle?.bind m.heap.key?) watch m = _
  rw [live]
  rfl

theorem getGlobal_eq (m : Machine) (key : Key) : getGlobal key watch m =
    match m.globals.get? key with
    | some v => push v watch m
    | none => .error (.failed (.undefinedVariable ((m.heap.text? key.handle).getD ""))) m := by
  change (match m.globals.get? key with | some v => _ | none => _ : Exec Unit) watch m = _
  cases m.globals.get? key <;> rfl

theorem setGlobal_eq (top : m.stack.back? = some v) : setGlobal key watch m =
    if (m.globals.insert key v).1
      then .error (.failed (.undefinedVariable ((m.heap.text? key.handle).getD "")))
        { m with globals := ((m.globals.insert key v).2.erase key).2 }
      else .ok ⟨⟩ { m with globals := (m.globals.insert key v).2 } := by
  refine (bind_eq (peek_eq top) _).trans ?_
  change (if (m.globals.insert key v).1 then _ else _ : Exec Unit) watch
    { m with globals := (m.globals.insert key v).2 } = _
  split <;> rfl

end Exec

namespace Machine

variable {m m' : Machine} {op : Option Opcode} {key : Key} {v : Value} {s : String}
  {log stored : List (String × Value)}

/-- The global that the next instruction stores, if it goes through, with its value: its name is the
text of a string constant, and the value is on top of the stack. -/
def stored? (m : Machine) : Option (String × Value) := do
  let instruction ← m.next?
  if instruction.opcode.storesGlobal then
    let key ← m.name? (instruction.operands.getD 0 0)
    return (← m.heap.text? key.handle, ← m.stack.back?)
  else none

/-- What happens to a machine, between runs or in the course of one, and what is stored in globals
by that. -/
inductive Happens (m : Machine) : List (String × Value) → Machine → Prop
  | define (native : Native) :
    Happens m [(native.name, .object (m.registered native).1)] (m.defineNative native)
  | intern (text : String) (extra : List Handle) : Happens m [] (m.intern text extra).2
  | function (f : Function) (extra : List Handle) :
    Happens m [] (m.allocate (.function f) extra).2
  | native (native : Native) (extra : List Handle) :
    Happens m [] (m.allocate (.native native) extra).2
  | collect : Happens m [] m.collect
  | tick (uptime : Number) : Happens m [] { m with uptime }
  | drain (sink : Sink) : Happens m [] { m with sink }
  | enter {m' : Machine} (h : Handle) (ran : enter h none m = .ok ⟨⟩ m') : Happens m [] m'
  /-- The function cannot be run. -/
  | refuse {m' : Machine} {stop : Stop} (h : Handle) (ran : enter h none m = .error stop m') :
    Happens m [] (m'.conclude stop).2
  | step {m' : Machine} (ran : Exec.step none m = .ok ⟨⟩ m') : Happens m m.stored?.toList m'
  /-- The run ends. Instructions that store a global do not end one unless they fail. -/
  | stop {m' : Machine} {stop : Stop} (ran : Exec.step none m = .error stop m') :
    Happens m [] (m'.conclude stop).2

/-- The machines that come about, each with all that has been stored in its globals, the latest
first. -/
inductive Chronicle : Machine → List (String × Value) → Prop
  | start (config : Config) (sink : Sink) (uptime : Number) : Chronicle (start config sink uptime)
    [(Native.clock.name, .object ((blank config sink uptime).registered .clock).1)]
  | next {m m' : Machine} {log stored : List (String × Value)} (chronicle : Chronicle m log)
    (happens : m.Happens stored m') : Chronicle m' (stored ++ log)

theorem Happens.occurs (happens : m.Happens stored m') (occurs : m.Occurs) : m'.Occurs := by
  cases happens with
  | define native => exact occurs.host (.defineNative native)
  | intern text extra => exact occurs.host (.intern text extra)
  | function f extra => exact occurs.host (.function f extra)
  | native native extra => exact occurs.host (.native native extra)
  | collect => exact occurs.host .collect
  | tick uptime => exact occurs.host (.tick uptime)
  | drain sink => exact occurs.host (.drain sink)
  | enter h ran => exact occurs.enter h ran
  | refuse h ran => exact occurs.refuse h ran
  | step ran => exact occurs.step ran
  | stop ran => exact occurs.stop ran

/-- Every machine that comes about has a chronicle. -/
theorem occurs_iff_exists_chronicle : m.Occurs ↔ ∃ log, m.Chronicle log := by
  constructor
  · intro occurs
    induction occurs with
    | start config sink uptime => exact ⟨_, .start config sink uptime⟩
    | host _ hosts ih =>
      obtain ⟨log, chronicle⟩ := ih
      cases hosts with
      | defineNative native => exact ⟨_, chronicle.next (.define native)⟩
      | intern text extra => exact ⟨_, chronicle.next (.intern text extra)⟩
      | function f extra => exact ⟨_, chronicle.next (.function f extra)⟩
      | native native extra => exact ⟨_, chronicle.next (.native native extra)⟩
      | collect => exact ⟨_, chronicle.next .collect⟩
      | tick uptime => exact ⟨_, chronicle.next (.tick uptime)⟩
      | drain sink => exact ⟨_, chronicle.next (.drain sink)⟩
    | enter _ h ran ih => exact ih.elim fun _ chronicle => ⟨_, chronicle.next (.enter h ran)⟩
    | refuse _ h ran ih => exact ih.elim fun _ chronicle => ⟨_, chronicle.next (.refuse h ran)⟩
    | step _ ran ih => exact ih.elim fun _ chronicle => ⟨_, chronicle.next (.step ran)⟩
    | stop _ ran ih => exact ih.elim fun _ chronicle => ⟨_, chronicle.next (.stop ran)⟩
  · rintro ⟨log, chronicle⟩
    induction chronicle with
    | start config sink uptime => exact .start config sink uptime
    | next _ happens ih => exact happens.occurs ih

/-! ## Storing globals -/

/-- Only few instructions change the table of the globals. -/
theorem Turns.globals_eq (turns : m.Turns op m') (other : ∀ o, op = some o → ¬ o.storesGlobal) :
    m'.globals = m.globals := by
  refine turns.induct (p := fun m' => m'.globals = m.globals) (fun m₁ m₂ same turn => ?_) rfl
  cases turn with
  | globals _ entitled =>
    rcases entitled with entitled | entitled
    · exact absurd rfl (other _ entitled)
    · exact absurd rfl (other _ entitled)
  | _ => exact same

/-- An instruction that stores a global and goes through has stored the top value under the name
that it has been given. -/
theorem stores_leaves {o : Opcode} (stores : o.storesGlobal) (a b : Nat) :
    (Exec.perform o a b).Leaves m (fun _ m' => ∃ key v, m.name? a = some key ∧
      m.stack.back? = some v ∧ m'.heap = m.heap ∧ m'.globals = (m.globals.insert key v).2)
      fun _ => True := by
  cases o with
  | defineGlobal =>
    refine .bind (.name (fun key named => .bind (.top (fun v top => .bind (.discard ?_))
      fun _ => trivial)) trivial)
    exact Exec.Leaves.discard (.pop (fun _ => ⟨key, v, named, top, rfl, rfl⟩) trivial)
  | setGlobal =>
    refine .bind (.name (fun key named => .bind (.top (fun v top => .bind ?_) fun _ => trivial))
      trivial)
    exact .ite (fun _ => .bind trivial) fun _ => ⟨key, v, named, top, rfl, rfl⟩
  | _ => cases stores

theorem stored?_eq_none (other : ∀ o, m.next?.map (·.opcode) = some o → ¬ o.storesGlobal) :
    m.stored? = none := by
  cases next : m.next? with
  | none => simp [stored?, next]
  | some instruction => simp [stored?, next, other _ (by rw [next, Option.map_some])]

/-- A step keeps up with the chronicle, to which it adds what it has stored. -/
theorem Tells.step (tells : m.Tells log) (occurs : m.Occurs)
    (ran : Exec.step none m = .ok ⟨⟩ m') : m'.Tells (m.stored?.toList ++ log) := by
  have sound := occurs.intact.toSound
  have sound' := (occurs.step ran).intact.toSound
  by_cases stores : ∃ o, m.next?.map (·.opcode) = some o ∧ o.storesGlobal
  · obtain ⟨_, is, stores⟩ := stores
    obtain ⟨instruction, next, rfl⟩ := Option.map_eq_some_iff.mp is
    obtain ⟨events, eq⟩ := Exec.step_eq_nextIp none next
    obtain ⟨key, v, named, top, heap, globals⟩ :=
      (stores_leaves stores _ _).of_ok (eq.symm.trans ran)
    have named := (m.name?_fetched events _).symm.trans named
    have live := key?_of_name? named
    obtain ⟨-, s, text, -⟩ := key?_eq_some_iff.mp live
    have top : m.stack.back? = some v := top
    have stored : m.stored? = some (s, v) := by
      simp only [stored?, next, stores, named, text, top, Option.bind_eq_bind, Option.bind_some,
        Option.pure_def, if_true]
    rw [stored]
    exact sound.tells_insert tells live text heap globals
  · have other o (is : m.next?.map (·.opcode) = some o) : ¬ o.storesGlobal :=
      fun stores' => stores ⟨o, is, stores'⟩
    have turns := (Exec.Leads.step none m).of_ok ran
    rw [stored?_eq_none other]
    exact tells.kept sound sound' occurs.regular turns.changes (turns.globals_eq other)

/-- A step that stops the machine has stored nothing. -/
theorem Tells.stop {stop : Stop} (tells : m.Tells log) (occurs : m.Occurs)
    (ran : Exec.step none m = .error stop m') : (m'.conclude stop).2.Tells log := by
  have intact := occurs.intact
  have sound' := (occurs.stop ran).intact.toSound
  by_cases stores : ∃ o, m.next?.map (·.opcode) = some o ∧ o.storesGlobal
  · obtain ⟨_, is, stores⟩ := stores
    obtain ⟨instruction, next, rfl⟩ := Option.map_eq_some_iff.mp is
    obtain ⟨events, eq⟩ := Exec.step_eq_nextIp none next
    have steady := (Exec.perform_leaves (intact.fetched events) (occurs.regular.fetched events)
      (Opcode.stays_of_storesGlobal stores) _ _).of_error (eq.symm.trans ran)
    have spared : m.Spared m' := ⟨steady.spares, steady.globals⟩
    exact fun s => ((spared.conclude (intact.of_stop ran) stop).global?_eq intact.toSound sound'
      s).trans (tells s)
  · have turns := (Exec.Leads.step none m).of_error ran
    have concluded : m'.Turns none (m'.conclude stop).2 := .conclude m' stop
    have globals := turns.globals_eq fun o is stores' => stores ⟨o, is, stores'⟩
    exact tells.kept intact.toSound sound' occurs.regular (turns.changes.trans concluded.changes)
      ((concluded.globals_eq nofun).trans globals)

/-- Whatever happens to a machine, its globals are those of the chronicle. -/
theorem Tells.happens (tells : m.Tells log) (occurs : m.Occurs) (happens : m.Happens stored m') :
    m'.Tells (stored ++ log) := by
  have intact := occurs.intact
  have sound' := (happens.occurs occurs).intact.toSound
  have kept (changes : m.Changes m') (globals : m'.globals = m.globals) : m'.Tells log :=
    tells.kept intact.toSound sound' occurs.regular changes globals
  cases happens with
  | define native => exact tells.defineNative intact occurs.regular native
  | intern text extra => exact kept (.one (.intern text extra)) rfl
  | function f extra => exact kept (.one (.allocate (.function f) extra nofun)) rfl
  | native native extra => exact kept (.one (.allocate (.native native) extra nofun)) rfl
  | collect => exact kept (.one .collect) rfl
  | tick uptime => exact kept (.one (.uptime uptime)) rfl
  | drain sink => exact kept (.one (.sink sink)) rfl
  | enter h ran =>
    have turns := (Exec.Leads.enter none h m).of_ok ran
    exact kept turns.changes (turns.globals_eq nofun)
  | @refuse m' stop h ran =>
    have turns := ((Exec.Leads.enter none h m).of_error ran).trans (.conclude m' stop)
    exact kept turns.changes (turns.globals_eq nofun)
  | step ran => exact tells.step occurs ran
  | stop ran => exact tells.stop occurs ran

theorem Chronicle.occurs (chronicle : m.Chronicle log) : m.Occurs :=
  occurs_iff_exists_chronicle.mpr ⟨log, chronicle⟩

theorem Chronicle.tells (chronicle : m.Chronicle log) : m.Tells log := by
  induction chronicle with
  | start config sink uptime =>
    have blank : (blank config sink uptime).Tells [] := fun s => by
      cases eq : (Machine.blank config sink uptime).global? s with
      | none => rfl
      | some v =>
        obtain ⟨key, -, mem⟩ :=
          (intact_blank .any config sink uptime).toSound.global?_eq_some_iff.mp eq
        exact absurd mem (by simp [Machine.blank])
    exact blank.defineNative (intact_blank .any config sink uptime)
      (regular_blank config sink uptime) .clock
  | next chronicle happens ih => exact ih.happens chronicle.occurs happens

/-! ## Undefined globals -/

theorem stopped?_getGlobal (text : m.heap.text? key.handle = some s) :
    m.stopped? (Exec.getGlobal key) none = some (.failed (.undefinedVariable s)) ↔
      m.globals.get? key = none := by
  rw [stopped?, Exec.getGlobal_eq, text]
  cases m.globals.get? key with
  | none => exact ⟨fun _ => rfl, fun _ => rfl⟩
  | some v =>
    -- There may be no room for the value.
    simp only [push_eq]
    by_cases full : m.config.stackLimit ≤ m.stack.size <;> simp [full]

theorem stopped?_setGlobal (sound : m.globals.Sound .any m.heap)
    (live : m.heap.key? key.handle = some key) (text : m.heap.text? key.handle = some s)
    (filled : m.stack.size ≠ 0) :
    m.stopped? (Exec.setGlobal key) none = some (.failed (.undefinedVariable s)) ↔
      m.globals.get? key = none := by
  obtain ⟨v, top⟩ := exists_back? filled
  have agrees := sound.agrees live
  have new : (m.globals.insert key v).1 ↔ m.globals.get? key = none :=
    (sound.lawful.insert_fst_iff agrees).trans (sound.lawful.get?_eq_none_iff agrees).symm
  rw [stopped?, Exec.setGlobal_eq top, text, ← new]
  by_cases absent : (m.globals.insert key v).1 <;> simp [absent]

/-- Whether a global is there decides whether reading or assigning it fails for want of it. -/
theorem Intact.undefined_iff {instruction : Instruction} (intact : m.Intact .any)
    (next : m.next? = some instruction)
    (named : m.name? (instruction.operands.getD 0 0) = some key)
    (text : m.heap.text? key.handle = some s)
    (looks : instruction.opcode = .getGlobal ∨
      instruction.opcode = .setGlobal ∧ m.stack.size ≠ 0) :
    m.stopped? Exec.step none = some (.failed (.undefinedVariable s)) ↔ m.global? s = none := by
  obtain ⟨events, eq⟩ := Exec.step_eq_nextIp none next
  have live := key?_of_name? named
  have named := (m.name?_fetched events _).trans named
  rw [intact.toSound.global?_eq live text]
  rcases looks with op | ⟨op, filled⟩
  · have ran : Exec.step none m = Exec.getGlobal key none (m.fetched events) := by
      rw [eq, op]
      exact Exec.bind_eq (Exec.name_eq named) _
    have fails := stopped?_getGlobal (m := m.fetched events) text
    rw [stopped?, ← ran] at fails
    exact fails
  · have ran : Exec.step none m = Exec.setGlobal key none (m.fetched events) := by
      rw [eq, op]
      exact Exec.bind_eq (Exec.name_eq named) _
    have fails := stopped?_setGlobal (m := m.fetched events) intact.globals live text filled
    rw [stopped?, ← ran] at fails
    exact fails

/-- Globals are found by the texts of their names: a global has the value that was stored under its
name last, by a host or by an instruction that went through, and if there was none, there is no such
global. An instruction that reads a global, or assigns the top value to it, fails for want of it
exactly if there is none, whichever string constant gives its name. -/
theorem Chronicle.globals_by_name (chronicle : m.Chronicle log) :
    (∀ s, m.global? s = log.lookup s) ∧
    ∀ instruction key s, m.next? = some instruction →
      m.name? (instruction.operands.getD 0 0) = some key → m.heap.text? key.handle = some s →
      instruction.opcode = .getGlobal ∨ instruction.opcode = .setGlobal ∧ m.stack.size ≠ 0 →
      (m.stopped? Exec.step none = some (.failed (.undefinedVariable s)) ↔
        log.lookup s = none) := by
  have tells := chronicle.tells
  refine ⟨tells, fun instruction key s next named text looks => ?_⟩
  rw [← tells s]
  exact chronicle.occurs.intact.undefined_iff next named text looks

theorem Chronicle.left_enter (chronicle : m.Chronicle log) {function : Handle}
    (goes : m.stopped? (Machine.enter function) none = none) :
    (m.left (Machine.enter function) none).Chronicle log :=
  chronicle.next (.enter function (eq_ok_of_stopped? goes))

theorem Chronicle.left_step (chronicle : m.Chronicle log) {o : Option (String × Value)}
    (goes : m.stopped? Exec.step none = none) (stores : m.stored? = o) :
    (m.left Exec.step none).Chronicle (o.toList ++ log) :=
  stores ▸ chronicle.next (.step (eq_ok_of_stopped? goes))

theorem Chronicle.conclude (chronicle : m.Chronicle log) {stop : Stop}
    (stops : m.stopped? Exec.step none = some stop) :
    ((m.left Exec.step none).conclude stop).2.Chronicle log :=
  chronicle.next (.stop (eq_error_of_stopped? stops))

/-- A script has failed to assign a global that is not there. -/
def failing : Machine :=
  let (x, m) := (start {} default .zero).intern "x" []
  let script : Chunk Value := ⟨#[Opcode.pushNil.byte, Opcode.setGlobal.byte, 0], #[], #[.object x]⟩
  let (function, m) := m.allocate (.function (.script script)) []
  let m := (m.left (enter function) none).left Exec.step none
  ((m.left Exec.step none).conclude (.failed (.undefinedVariable "x"))).2

/-- After the string that named this global has been collected, another script has defined it by a
new string. It is about to read a global that is not there. -/
def naming : Machine :=
  let (x, m) := failing.collect.intern "x" []
  let (y, m) := m.intern "y" []
  let code := #[Opcode.constant.byte, 2, Opcode.defineGlobal.byte, 0, Opcode.getGlobal.byte, 1]
  let script : Chunk Value := ⟨code, #[], #[.object x, .object y, .number (.ofNat 7)]⟩
  let (function, m) := m.allocate (.function (.script script)) []
  ((m.left (enter function) none).left Exec.step none).left Exec.step none

theorem globals_by_name_naming :
    naming.Chronicle [("x", .number (.ofNat 7)), ("clock", .object ⟨2⟩)] ∧
    failing.heap.text? ⟨3⟩ = some "x" ∧ naming.heap.text? ⟨6⟩ = some "x" ∧
    naming.global? "x" = some (.number (.ofNat 7)) ∧
    naming.stopped? Exec.step none = some (.failed (.undefinedVariable "y")) := by
  have begun : (start {} default .zero).Chronicle [("clock", .object ⟨2⟩)] := by
    have handle : ((blank {} default .zero).registered .clock).1 = ⟨2⟩ := by decide +kernel
    exact handle ▸ Chronicle.start {} default .zero
  have failed : failing.Chronicle [("clock", .object ⟨2⟩)] := by
    refine .conclude (.left_step (o := none) (.left_enter ?_ ?_) ?_ ?_) ?_
    · exact (begun.next (.intern "x" [])).next (.function _ [])
    all_goals decide +kernel
  have chronicle : naming.Chronicle [("x", .number (.ofNat 7)), ("clock", .object ⟨2⟩)] := by
    refine .left_step (o := some ("x", .number (.ofNat 7)))
      (.left_step (o := none) (.left_enter ?_ ?_) ?_ ?_) ?_ ?_
    · exact (((failed.next .collect).next (.intern "x" [])).next (.intern "y" [])).next
        (.function _ [])
    all_goals decide +kernel
  obtain ⟨named, undefined⟩ := chronicle.globals_by_name
  refine ⟨chronicle, by decide +kernel, by decide +kernel, named "x", ?_⟩
  have next : naming.next? = some ⟨.getGlobal, [1]⟩ := by decide +kernel
  have key : naming.name? 1 = some ⟨⟨7⟩, Hash.ofText "y"⟩ := by decide +kernel
  have text : naming.heap.text? ⟨7⟩ = some "y" := by decide +kernel
  exact (undefined _ _ _ next key text (.inl rfl)).mpr rfl

end Machine

end ScriptMachine
