/-
# Classes and instances

A class is a flat table of methods. It starts without any, is given methods one
by one, and may copy all methods that another class has at that moment; what
becomes of the other class later does not matter to it. An instance is a table of
fields, which starts without any, and a reference to its class. Nothing else
changes these tables, whatever byte code is run and whenever collections happen.

Annals tell what has been done to classes and instances since the machine was
started, the latest first. Replaying them on plain maps from names to values
gives what the tables hold. A property of an instance is its field, or else the
method that its class has now, or else it is undefined.

## Main definitions

* `Roster`, `Roster.replay` — what classes and instances have, as plain maps
* `Machine.altered?` — what the next instruction does to a class or an instance
* `Machine.Annals` — a machine, and all that has been done to its classes and instances
* `Heap.Follows` — classes and instances have what a roster says

## Main results

* `Turns.unaltered` — most instructions leave the tables of classes and instances alone
* `alters_leaves` — what the others do to them
* `Annals.follows` — replaying the annals gives the tables
* `Annals.flat_objects` — that, and how properties of instances are found
-/

import ScriptMachine.Proofs.Machine.Dispatching

namespace ScriptMachine

open Heap

/-- What is done to a class or to an instance. -/
inductive Alteration
  /-- A class is given a method. -/
  | method (cls : Handle) (name : String) (v : Value)
  /-- A class copies the methods of another one. -/
  | inherit (cls superclass : Handle)
  /-- A field of an instance is set. -/
  | field (inst : Handle) (name : String) (v : Value)
  deriving DecidableEq

/-- What classes have as methods and instances as fields, by names. -/
structure Roster where
  methods : Handle → String → Option Value
  fields : Handle → String → Option Value

namespace Roster

/-- Nothing has a method or a field. -/
def empty : Roster := ⟨fun _ _ => none, fun _ _ => none⟩

/-- The roster once this has been done. A class that copies methods takes what the other class has
now. -/
def after (r : Roster) : Alteration → Roster
  | .method cls name v =>
    let methods := Function.update (r.methods cls) name (some v)
    { r with methods := Function.update r.methods cls methods }
  | .inherit cls superclass =>
    let methods name := (r.methods superclass name).or (r.methods cls name)
    { r with methods := Function.update r.methods cls methods }
  | .field inst name v =>
    let fields := Function.update (r.fields inst) name (some v)
    { r with fields := Function.update r.fields inst fields }

/-- The roster once all this has been done. The latest comes first in the list. -/
def replay : List Alteration → Roster
  | [] => empty
  | alteration :: earlier => (replay earlier).after alteration

end Roster

/-- The property of an instance of a class with a name: the field, or else the method if it is an
object. -/
def Roster.property? (r : Roster) (inst cls : Handle) (name : String) : Option Property :=
  match r.fields inst name with
  | some v => some (.field v)
  | none => ((r.methods cls name).bind Value.handle?).map .method

/-! ## Heaps -/

/-- The tables of classes and instances are as they were, and new ones are empty. -/
structure Heap.Unaltered (heap after : Heap) : Prop where
  grown : heap.cells.size ≤ after.cells.size
  same : ∀ h object t, after.get? h = some object → object.table? = some t →
    heap.get? h = some object ∨ heap.cells.size ≤ h.index ∧ t = .empty

/-- The classes and instances of the heap have what the roster says. There is nothing in the roster
for handles that have not been handed out. -/
structure Heap.Follows (heap : Heap) (r : Roster) : Prop where
  methods : ∀ h t, heap.methods? h = some t → heap.named? t = r.methods h
  fields : ∀ h owner t, heap.instance? h = some (owner, t) → heap.named? t = r.fields h
  fresh : ∀ h, heap.cells.size ≤ h.index → ∀ name, r.methods h name = none ∧ r.fields h name = none

namespace Heap

variable {c : Custody} {heap other after : Heap} {roots : List Handle} {h : Handle}
  {object : Object} {r : Roster} {t : Table}

namespace Unaltered

theorem refl (heap : Heap) : heap.Unaltered heap := ⟨Nat.le_refl _, fun _ _ _ found _ => .inl found⟩

theorem trans (unaltered : heap.Unaltered other) (unaltered' : other.Unaltered after) :
    heap.Unaltered after where
  grown := unaltered.grown.trans unaltered'.grown
  same h object t found has := by
    rcases unaltered'.same h object t found has with found | ⟨new, bare⟩
    · exact unaltered.same h object t found has
    · exact .inr ⟨unaltered.grown.trans new, bare⟩

/-- Where all objects were there before, their tables are as they were. -/
theorem of_get? (grown : heap.cells.size ≤ after.cells.size)
    (old : ∀ h object, after.get? h = some object → heap.get? h = some object) :
    heap.Unaltered after := ⟨grown, fun h object _ found _ => .inl (old h object found)⟩

theorem collect (clean : heap.Clean) (roots : List Handle) : heap.Unaltered (heap.collect roots) :=
  of_get? (size_cells_collect clean roots).ge fun _ _ found => ((get?_collect_iff clean).mp found).1

theorem allocated (allocated : heap.Allocated object roots h after) (bare : object.Bare) :
    heap.Unaltered after := by
  refine ⟨allocated.grown, fun k o t found has => ?_⟩
  by_cases new : k = h
  · rw [new, allocated.get?] at found
    rw [new, allocated.fresh]
    exact .inr ⟨Nat.le_refl _, bare t (Option.some.inj found ▸ has)⟩
  · exact .inl (allocated.get?_old new found)

theorem allocate (clean : heap.Clean) (object : Object) (bare : object.Bare)
    (roots : List Handle) : heap.Unaltered (heap.allocate object roots).2 :=
  allocated (allocated_allocate clean object roots) bare

theorem intern (canonical : heap.Canonical) (clean : heap.Clean) (text : String)
    (roots : List Handle) : heap.Unaltered (heap.intern text roots).2 := by
  rcases interned_intern canonical clean text roots with ⟨-, same⟩ | ⟨-, interned⟩
  · rw [same]
    exact refl heap
  · exact allocated interned nofun

/-- An object is changed that does not become a class or an instance. -/
theorem modify (h : Handle) {f : Object → Object} (other : ∀ object, f object = object ∨
    (f object).table? = none) : heap.Unaltered (heap.modify h f) := by
  refine ⟨(size_cells_modify heap h f).ge, fun k o t found has => .inl ?_⟩
  rw [get?_modify] at found
  split at found
  · obtain ⟨before, live, rfl⟩ := Option.map_eq_some_iff.mp found
    rcases other before with same | none
    · rw [same, live]
    · rw [none] at has
      cases has
  · exact found

theorem setUpvalue (heap : Heap) (h : Handle) (u : Upvalue) :
    heap.Unaltered (heap.setUpvalue h u) := modify h fun _ => .inr rfl

theorem pushCaptured (heap : Heap) (h upvalue : Handle) :
    heap.Unaltered (heap.pushCaptured h upvalue) := by
  refine modify h fun object => ?_
  cases object <;> first | exact .inl rfl | exact .inr rfl

end Unaltered

/-- As long as the tables stay as they are and strings keep their texts, a roster goes on to say
what classes and instances have. -/
theorem Follows.kept (follows : heap.Follows r) (sound : heap.Sound c) (sound' : after.Sound c)
    (unaltered : heap.Unaltered after)
    (texts : ∀ h s, h.index < heap.cells.size → after.text? h = some s → heap.text? h = some s) :
    after.Follows r := by
  have named {t : Table} (old : t.Sound c heap) (new : t.Sound c after) :
      after.named? t = heap.named? t := by
    refine funext (old.named?_congr new sound.canonical sound'.canonical (fun _ _ => Iff.rfl)
      fun key v mem _ => ?_)
    have issued := lt_size_of_contains (contains_of_kind? (kind?_of_key? (old.keys key v mem)))
    obtain ⟨-, s, found, -⟩ := key?_eq_some_iff.mp (new.keys key v mem)
    rw [found, texts _ _ issued found]
  refine ⟨fun h t found => ?_, fun h owner t found => ?_,
    fun h new => follows.fresh h (unaltered.grown.trans new)⟩
  · obtain ⟨name, found⟩ := get?_of_methods? found
    rcases unaltered.same h _ t found rfl with before | ⟨new, rfl⟩
    · rw [named (sound.object h _ before).2 (sound'.object h _ found).2]
      exact follows.methods h t (by rw [methods?, before])
    · exact funext fun name => (named?_empty after name).trans (follows.fresh h new name).1.symm
  · have found := get?_of_instance? found
    rcases unaltered.same h _ t found rfl with before | ⟨new, rfl⟩
    · rw [named (sound.object h _ before).2 (sound'.object h _ found).2]
      exact follows.fields h owner t (by rw [instance?, before])
    · exact funext fun name => (named?_empty after name).trans (follows.fresh h new name).2.symm

/-! ## Writing tables -/

/-- The heap after this has been done to a class or an instance that is live. The name is the text
of a live string. -/
inductive Writes (heap : Heap) : Alteration → Heap → Prop
  | method {cls : Handle} {methods : Table} {key : Key} {name : String} (v : Value)
    (live : heap.key? key.handle = some key) (text : heap.text? key.handle = some name)
    (found : heap.methods? cls = some methods) :
    Writes heap (.method cls name v) ((heap.setMethods cls (methods.insert key v).2).recharge cls)
  | inherit {cls superclass : Handle} {methods inherited : Table}
    (found : heap.methods? cls = some methods)
    (copied : heap.methods? superclass = some inherited) :
    Writes heap (.inherit cls superclass)
      ((heap.setMethods cls (methods.addAll inherited)).recharge cls)
  | field {inst owner : Handle} {fields : Table} {key : Key} {name : String} (v : Value)
    (live : heap.key? key.handle = some key) (text : heap.text? key.handle = some name)
    (found : heap.instance? inst = some (owner, fields)) :
    Writes heap (.field inst name v) ((heap.setFields inst (fields.insert key v).2).recharge inst)

theorem interned_recharge (heap : Heap) (h : Handle) :
    (heap.recharge h).interned = heap.interned := by
  unfold recharge
  split <;> rfl

/-- Where an object has been changed that is not a string, names are found as before. -/
theorem named?_recharge_modify {f : Object → Object} (found : heap.get? h = some object)
    (other : object.kind ≠ .string) (kind : (f object).kind = object.kind) (t : Table) :
    ((heap.modify h f).recharge h).named? t = heap.named? t := by
  have keeps (k : Handle) : heap.Keeps ((heap.modify h f).recharge h) k :=
    (keeps_modify found other kind k).trans (keeps_recharge (heap.modify h f) h k)
  have interned : ((heap.modify h f).recharge h).interned = heap.interned :=
    interned_recharge (heap.modify h f) h
  exact funext (named?_of_keeps interned keeps t)

/-- Where one object has been changed, only its entry in the roster matters. -/
theorem Follows.modify {f : Object → Object} {r' : Roster} (follows : heap.Follows r)
    (found : heap.get? h = some object) (other : object.kind ≠ .string)
    (kind : (f object).kind = object.kind)
    (others : ∀ k ≠ h, r'.methods k = r.methods k ∧ r'.fields k = r.fields k)
    (methods : ∀ name t, f object = .cls name t → heap.named? t = r'.methods h)
    (fields : ∀ owner t, f object = .inst owner t → heap.named? t = r'.fields h) :
    ((heap.modify h f).recharge h).Follows r' := by
  have named (t : Table) := named?_recharge_modify found other kind t
  have here : ((heap.modify h f).recharge h).get? h = some (f object) := by
    rw [get?_recharge, get?_modify, if_pos rfl, found, Option.map_some]
  have there {k : Handle} (ne : k ≠ h) :
      ((heap.modify h f).recharge h).get? k = heap.get? k := by
    rw [get?_recharge, get?_modify, if_neg ne]
  refine ⟨fun k t live => ?_, fun k owner t live => ?_, fun k new => ?_⟩
  · obtain ⟨name, live⟩ := get?_of_methods? live
    rw [named]
    by_cases same : k = h
    · rw [same] at live ⊢
      exact methods name t (Option.some.inj (here.symm.trans live))
    · rw [(others k same).1]
      exact follows.methods k t (by rw [methods?, ← there same, live])
  · have live := get?_of_instance? live
    rw [named]
    by_cases same : k = h
    · rw [same] at live ⊢
      exact fields owner t (Option.some.inj (here.symm.trans live))
    · rw [(others k same).2]
      exact follows.fields k owner t (by rw [instance?, ← there same, live])
  -- The handle of the object that was changed had been handed out.
  · rw [size_cells_recharge, size_cells_modify] at new
    have ne : k ≠ h := by
      rintro rfl
      exact Nat.not_lt.mpr new (lt_size_of_contains (contains_of_get? found))
    rw [(others k ne).1, (others k ne).2]
    exact follows.fresh k new

/-- A class is given a table of methods. -/
theorem Follows.setMethods {methods : String → Option Value} {old : Table}
    (follows : heap.Follows r) (found : heap.methods? h = some old)
    (denotes : heap.named? t = methods) :
    ((heap.setMethods h t).recharge h).Follows
      { r with methods := Function.update r.methods h methods } := by
  obtain ⟨name, object⟩ := get?_of_methods? found
  refine follows.modify object nofun rfl (fun k ne => ⟨Function.update_of_ne ne _ _, rfl⟩) ?_ nofun
  rintro _ _ ⟨⟩
  exact denotes.trans (Function.update_self h methods r.methods).symm

/-- An instance is given a table of fields. -/
theorem Follows.setFields {fields : String → Option Value} {owner : Handle} {old : Table}
    (follows : heap.Follows r) (found : heap.instance? h = some (owner, old))
    (denotes : heap.named? t = fields) :
    ((heap.setFields h t).recharge h).Follows
      { r with fields := Function.update r.fields h fields } := by
  have object := get?_of_instance? found
  refine follows.modify object nofun rfl (fun k ne => ⟨rfl, Function.update_of_ne ne _ _⟩) nofun ?_
  rintro _ _ ⟨⟩
  exact denotes.trans (Function.update_self h fields r.fields).symm

/-- The methods of a class have live strings as names. -/
theorem Sound.methods {methods : Table} (sound : heap.Sound c)
    (found : heap.methods? h = some methods) : methods.Sound c heap := by
  obtain ⟨_, object⟩ := get?_of_methods? found
  exact (sound.object _ _ object).2

/-- The fields of an instance have live strings as names. -/
theorem Sound.fields {owner : Handle} {fields : Table} (sound : heap.Sound c)
    (found : heap.instance? h = some (owner, fields)) : fields.Sound c heap :=
  (sound.object _ _ (get?_of_instance? found)).2

/-- What is done to a class or an instance is done in the roster. -/
theorem Follows.writes {alteration : Alteration} (follows : heap.Follows r) (sound : heap.Sound c)
    (writes : heap.Writes alteration after) : after.Follows (r.after alteration) := by
  have canonical := sound.canonical
  cases writes with
  | method v live text found =>
    refine follows.setMethods found ?_
    rw [(sound.methods found).named?_insert canonical live text, follows.methods _ _ found]
  | inherit found copied =>
    refine follows.setMethods found (funext fun name => ?_)
    rw [(sound.methods found).named?_addAll (sound.methods copied) canonical,
      follows.methods _ _ found, follows.methods _ _ copied]
  | field v live text found =>
    refine follows.setFields found ?_
    rw [(sound.fields found).named?_insert canonical live text, follows.fields _ _ _ found]

/-- What the roster says about a property is what the heap has. -/
theorem Follows.property?_eq {inst cls : Handle} {fields : Table} {key : Key} {name : String}
    (follows : heap.Follows r) (sound : heap.Sound c)
    (found : heap.instance? inst = some (cls, fields)) (live : heap.key? key.handle = some key)
    (text : heap.text? key.handle = some name) :
    heap.property? cls fields key = r.property? inst cls name := by
  obtain ⟨methods, owned⟩ : ∃ methods, heap.methods? cls = some methods := by
    obtain ⟨object, isClass, kind⟩ :=
      kind?_eq_some_iff.mp (sound.object _ _ (get?_of_instance? found)).1
    cases object with
    | cls _ methods => exact ⟨methods, by rw [methods?, isClass]⟩
    | _ => cases kind
  have field : fields.get? key = r.fields inst name := by
    rw [← follows.fields _ _ _ found, sound.canonical.named?_eq live text]
  have method : methods.get? key = r.methods cls name := by
    rw [← follows.methods _ _ owned, sound.canonical.named?_eq live text]
  rw [property?, method?, owned, Option.bind_some, field, method]
  rfl

end Heap

/-! ## Instructions that leave tables alone -/

/-- The instruction changes a class or an instance. -/
def Opcode.alters : Opcode → Bool
  | .setProperty | .inherit | .method => true
  | _ => false

namespace Machine

variable {m m' : Machine} {op : Option Opcode}

theorem Turn.unaltered (turn : m.Turn op m') (other : ∀ o, op = some o → ¬ o.alters)
    (regular : m.Regular) : m.heap.Unaltered m'.heap := by
  have clean := regular.heap.arises.clean
  cases turn with
  | allocate object extra _ _ bare => exact .allocate clean object bare _
  | intern text extra => exact .intern regular.heap.canonical clean text _
  | setUpvalue found u' => exact .setUpvalue _ _ u'
  | pushCaptured h upvalue => exact .pushCaptured _ h upvalue
  | setFields h fields entitled => exact absurd rfl (other _ entitled)
  | setMethods h methods entitled =>
    rcases entitled with entitled | entitled
    · exact absurd rfl (other _ entitled)
    · exact absurd rfl (other _ entitled)
  | push | stack | enter | frames | globals | openUpvalues | sink | events => exact .refl _

/-- All instructions but three leave the tables of classes and instances as they are. -/
theorem Turns.unaltered (turns : m.Turns op m') (other : ∀ o, op = some o → ¬ o.alters)
    (regular : m.Regular) : m.heap.Unaltered m'.heap := by
  suffices both : m'.Regular ∧ m.heap.Unaltered m'.heap from both.2
  refine turns.induct (p := fun m' => m'.Regular ∧ m.heap.Unaltered m'.heap)
    (fun m₁ m₂ holds turn => ?_) ⟨regular, .refl _⟩
  obtain ⟨regular, unaltered⟩ := holds
  exact ⟨Changes.regular turn.changes regular, unaltered.trans (turn.unaltered other regular)⟩

theorem Hosts.unaltered (hosts : m.Hosts m') (regular : m.Regular) :
    m.heap.Unaltered m'.heap := by
  have clean := regular.heap.arises.clean
  have canonical := regular.heap.canonical
  cases hosts with
  | defineNative native =>
    have interned : m.heap.Unaltered (m.intern native.name []).2.heap :=
      .intern canonical clean _ _
    exact interned.trans (.allocate (clean.intern _ _) (.native native) nofun _)
  | intern text extra => exact .intern canonical clean text _
  | function f extra => exact .allocate clean (.function f) nofun _
  | native native extra => exact .allocate clean (.native native) nofun _
  | collect => exact .collect clean _
  | tick | drain => exact .refl _

/-! ## Instructions that write tables -/

/-- What an instruction with this operand does to a class or an instance, if it goes through. The
value on top of the stack is given to what lies below; but it is the class on top that inherits. -/
def alteration? (m : Machine) (op : Opcode) (operand : Nat) : Option Alteration := do
  let top ← m.stack.back?
  let below ← m.stack.pop.back?
  match op with
  | .method => return .method (← below.handle?) (← m.heap.text? (← m.name? operand).handle) top
  | .inherit => return .inherit (← top.handle?) (← below.handle?)
  | .setProperty => return .field (← below.handle?) (← m.heap.text? (← m.name? operand).handle) top
  | _ => none

/-- What the next instruction does to a class or an instance, if it goes through. -/
def altered? (m : Machine) : Option Alteration := do
  let instruction ← m.next?
  m.alteration? instruction.opcode (instruction.operands.getD 0 0)

theorem alteration?_fetched (m : Machine) (events : List ExecutionEvent) (op : Opcode) (a : Nat) :
    (m.fetched events).alteration? op a = m.alteration? op a := by
  unfold alteration?
  rw [name?_fetched]
  rfl

theorem altered?_eq_none (other : ∀ o, m.next?.map (·.opcode) = some o → ¬ o.alters) :
    m.altered? = none := by
  cases next : m.next? with
  | none => simp [altered?, next]
  | some instruction =>
    have plain := other _ (by rw [next, Option.map_some])
    have nothing {op : Opcode} (plain : ¬ op.alters) (a : Nat) : m.alteration? op a = none := by
      unfold alteration?
      cases op <;> first | exact absurd rfl plain | simp
    simp [altered?, next, nothing plain]

end Machine

namespace Exec

open Machine

variable {m : Machine} {v : Value} {a b : Nat}

namespace Leaves

variable {halt : Machine → Prop}

/-- The value below the top is looked at, if there is one. -/
theorem below {post : Value → Machine → Prop}
    (holds : ∀ v, 1 < m.stack.size → m.stack.pop.back? = some v → post v m) (halted : halt m) :
    (Exec.peek 1).Leaves m post halt := by
  refine .get_bind (.ite (fun two => .orMalformed (fun v found => holds v two ?_) fun _ => halted)
    fun _ => halted)
  rw [Array.back?, Array.size_pop, Array.getElem?_pop, if_pos (by omega), ← found]

theorem orFail {α : Type} {post : α → Machine → Prop} {kind : ErrorKind} {o : Option α}
    (holds : ∀ a, o = some a → post a m) (halted : halt m) :
    (Exec.orFail kind o).Leaves m post halt := by
  cases o with
  | none => exact halted
  | some a => exact holds a rfl

theorem class? {post : Option (Handle × Table) → Machine → Prop}
    (holds : ∀ o, (∀ h methods, o = some (h, methods) →
      v.handle? = some h ∧ m.heap.methods? h = some methods) → post o m) :
    (Exec.class? v).Leaves m post halt := by
  refine .get_bind (holds _ fun h methods eq => ?_)
  obtain ⟨h', handle, eq⟩ := Option.bind_eq_some_iff.mp eq
  obtain ⟨table, found, eq⟩ := Option.bind_eq_some_iff.mp eq
  obtain ⟨rfl, rfl⟩ : h' = h ∧ table = methods := by simpa using eq
  exact ⟨handle, found⟩

theorem instance? {post : Option (Handle × Handle × Table) → Machine → Prop}
    (holds : ∀ o, (∀ h owner fields, o = some (h, owner, fields) →
      v.handle? = some h ∧ m.heap.instance? h = some (owner, fields)) → post o m) :
    (Exec.instance? v).Leaves m post halt := by
  refine .get_bind (holds _ fun h owner fields eq => ?_)
  obtain ⟨h', handle, eq⟩ := Option.bind_eq_some_iff.mp eq
  obtain ⟨pair, found, eq⟩ := Option.bind_eq_some_iff.mp eq
  obtain ⟨rfl, rfl⟩ : h' = h ∧ pair = (owner, fields) := by simpa using eq
  exact ⟨handle, found⟩

end Leaves

/-- An instruction that changes a class or an instance and goes through has done what it was to do.
If it fails, it has not changed the heap. -/
theorem alters_leaves (limit : m.stack.size ≤ m.config.stackLimit) {op : Opcode}
    (alters : op.alters) (a b : Nat) :
    (Exec.perform op a b).Leaves m (fun _ m' => ∃ alteration,
      m.alteration? op a = some alteration ∧ m.heap.Writes alteration m'.heap)
      fun m' => m'.heap = m.heap := by
  cases op with
  | method =>
    refine .bind (.name (fun key named => .bind (.top (fun v top =>
      .bind (.below (fun w two below => .bind (.class? fun o found =>
        .bind (.orMalformed ?_ fun _ => rfl))) rfl)) fun _ => rfl)) rfl)
    rintro ⟨cls, methods⟩ eq
    obtain ⟨handle, found⟩ := found _ _ eq
    have live := key?_of_name? named
    obtain ⟨-, name, text, -⟩ := key?_eq_some_iff.mp live
    have done : m.alteration? .method a = some (.method cls name v) := by
      simp [alteration?, top, below, handle, named, text]
    exact .bind (.discard (.popThere (Nat.zero_lt_of_lt two)
      fun _ => ⟨_, done, .method v live text found⟩))
  | inherit =>
    refine .bind (.below (fun w two below => .bind (.top (fun v top => .bind (.class? fun o found =>
      .bind (.orFail ?_ rfl))) fun _ => rfl)) rfl)
    rintro ⟨superclass, inherited⟩ eq
    obtain ⟨handle, copied⟩ := found _ _ eq
    refine .bind (.class? fun o found => .bind (.orMalformed ?_ fun _ => rfl))
    rintro ⟨cls, methods⟩ eq
    obtain ⟨handle', found⟩ := found _ _ eq
    have done : m.alteration? .inherit a = some (.inherit cls superclass) := by
      simp [alteration?, top, below, handle, handle']
    exact .bind (.discard (.popThere (Nat.zero_lt_of_lt two)
      fun _ => ⟨_, done, .inherit found copied⟩))
  | setProperty =>
    refine .bind (.name (fun key named => .bind (.below (fun w two below =>
      .bind (.top (fun v top => .bind (.instance? fun o found =>
        .bind (.orFail ?_ rfl))) fun _ => rfl)) rfl)) rfl)
    rintro ⟨inst, owner, fields⟩ eq
    obtain ⟨handle, found⟩ := found _ _ _ eq
    have live := key?_of_name? named
    obtain ⟨-, name, text, -⟩ := key?_eq_some_iff.mp live
    have done : m.alteration? .setProperty a = some (.field inst name v) := by
      simp [alteration?, top, below, handle, named, text]
    exact .bind (.replaceTwoThere limit two ⟨_, done, .field v live text found⟩)
  | _ => cases alters

end Exec

/-! ## Annals -/

namespace Machine

variable {m m' : Machine} {log : List Alteration}

/-- The machines that come about, each with all that has been done to its classes and instances, the
latest first. Only instructions do anything to them, and only if they go through. -/
inductive Annals : Machine → List Alteration → Prop
  | start (config : Config) (sink : Sink) (uptime : Number) : Annals (start config sink uptime) []
  | host {m m' : Machine} {log : List Alteration} (annals : Annals m log) (hosts : m.Hosts m') :
    Annals m' log
  | enter {m m' : Machine} {log : List Alteration} (annals : Annals m log) (h : Handle)
    (ran : enter h none m = .ok ⟨⟩ m') : Annals m' log
  /-- The function cannot be run. -/
  | refuse {m m' : Machine} {log : List Alteration} {stop : Stop} (annals : Annals m log)
    (h : Handle) (ran : enter h none m = .error stop m') : Annals (m'.conclude stop).2 log
  | step {m m' : Machine} {log : List Alteration} (annals : Annals m log)
    (ran : Exec.step none m = .ok ⟨⟩ m') : Annals m' (m.altered?.toList ++ log)
  /-- The run ends. -/
  | stop {m m' : Machine} {log : List Alteration} {stop : Stop} (annals : Annals m log)
    (ran : Exec.step none m = .error stop m') : Annals (m'.conclude stop).2 log

theorem Annals.occurs (annals : m.Annals log) : m.Occurs := by
  induction annals with
  | start config sink uptime => exact .start config sink uptime
  | host _ hosts ih => exact ih.host hosts
  | enter _ h ran ih => exact ih.enter h ran
  | refuse _ h ran ih => exact ih.refuse h ran
  | step _ ran ih => exact ih.step ran
  | stop _ ran ih => exact ih.stop ran

/-- Every machine that comes about has annals. -/
theorem occurs_iff_exists_annals : m.Occurs ↔ ∃ log, m.Annals log := by
  constructor
  · intro occurs
    induction occurs with
    | start config sink uptime => exact ⟨_, .start config sink uptime⟩
    | host _ hosts ih => exact ih.elim fun _ annals => ⟨_, annals.host hosts⟩
    | enter _ h ran ih => exact ih.elim fun _ annals => ⟨_, annals.enter h ran⟩
    | refuse _ h ran ih => exact ih.elim fun _ annals => ⟨_, annals.refuse h ran⟩
    | step _ ran ih => exact ih.elim fun _ annals => ⟨_, annals.step ran⟩
    | stop _ ran ih => exact ih.elim fun _ annals => ⟨_, annals.stop ran⟩
  · rintro ⟨log, annals⟩
    exact annals.occurs

/-- Whatever leaves the tables alone, the roster goes on to say what they hold. -/
theorem Occurs.follows_of_unaltered {r : Roster} (occurs : m.Occurs) (occurs' : m'.Occurs)
    (follows : m.heap.Follows r) (unaltered : m.heap.Unaltered m'.heap) (changes : m.Changes m') :
    m'.heap.Follows r :=
  follows.kept occurs.intact.toSound.heap occurs'.intact.toSound.heap unaltered
    fun _ _ issued found => changes.text? occurs.regular issued found

/-- A step that goes through does to classes and instances what it was to do, and nothing else. -/
theorem Occurs.follows_of_step {r : Roster} (occurs : m.Occurs) (follows : m.heap.Follows r)
    (ran : Exec.step none m = .ok ⟨⟩ m') :
    m'.heap.Follows (m.altered?.elim r r.after) := by
  by_cases alters : ∃ o, m.next?.map (·.opcode) = some o ∧ o.alters
  · obtain ⟨_, is, alters⟩ := alters
    obtain ⟨instruction, next, rfl⟩ := Option.map_eq_some_iff.mp is
    obtain ⟨events, eq⟩ := Exec.step_eq_nextIp none next
    obtain ⟨alteration, done, writes⟩ :=
      (Exec.alters_leaves (occurs.regular.fetched events).stack alters _ _).of_ok
        (eq.symm.trans ran)
    have altered : m.altered? = some alteration := by
      rw [altered?, next]
      exact (m.alteration?_fetched events _ _).symm.trans done
    rw [altered]
    exact follows.writes occurs.intact.toSound.heap writes
  · have other o (is : m.next?.map (·.opcode) = some o) : ¬ o.alters :=
      fun alters' => alters ⟨o, is, alters'⟩
    have turns := (Exec.Leads.step none m).of_ok ran
    rw [altered?_eq_none other]
    exact occurs.follows_of_unaltered (occurs.step ran) follows
      (turns.unaltered other occurs.regular) turns.changes

/-- A step that stops the machine has done nothing to classes and instances. -/
theorem Occurs.unaltered_of_stop {stop : Stop} (occurs : m.Occurs)
    (ran : Exec.step none m = .error stop m') : m.heap.Unaltered m'.heap := by
  by_cases alters : ∃ o, m.next?.map (·.opcode) = some o ∧ o.alters
  · obtain ⟨_, is, alters⟩ := alters
    obtain ⟨instruction, next, rfl⟩ := Option.map_eq_some_iff.mp is
    obtain ⟨events, eq⟩ := Exec.step_eq_nextIp none next
    have same : m'.heap = m.heap :=
      (Exec.alters_leaves (occurs.regular.fetched events).stack alters _ _).of_error
        (eq.symm.trans ran)
    rw [same]
    exact .refl _
  · exact ((Exec.Leads.step none m).of_error ran).unaltered
      (fun o is alters' => alters ⟨o, is, alters'⟩) occurs.regular

/-- A machine that has just been started has no classes and instances. -/
theorem follows_start (config : Config) (sink : Sink) (uptime : Number) :
    (start config sink uptime).heap.Follows Roster.empty := by
  have nothing : (Heap.empty config).Follows Roster.empty := by
    have unknown (h : Handle) : (Heap.empty config).get? h = none := by simp [get?]
    refine ⟨fun h t found => ?_, fun h owner t found => ?_, fun h _ name => ⟨rfl, rfl⟩⟩
    · obtain ⟨_, found⟩ := get?_of_methods? found
      cases (unknown h).symm.trans found
    · cases (unknown h).symm.trans (get?_of_instance? found)
  have named : (Heap.empty config).Unaltered (blank config sink uptime).heap :=
    .intern (canonical_empty config) (clean_empty config) _ _
  have started : (blank config sink uptime).heap.Unaltered (start config sink uptime).heap :=
    Hosts.unaltered (.defineNative .clock) (regular_blank config sink uptime)
  exact nothing.kept (sound_empty .any config) (intact_start .any config sink uptime).toSound.heap
    (named.trans started) fun _ _ issued => absurd issued (Nat.not_lt_zero _)

/-- Replaying the annals gives what classes and instances have. -/
theorem Annals.follows (annals : m.Annals log) : m.heap.Follows (Roster.replay log) := by
  induction annals with
  | start config sink uptime => exact follows_start config sink uptime
  | @host m m' log annals hosts ih =>
    exact annals.occurs.follows_of_unaltered (annals.occurs.host hosts) ih
      (hosts.unaltered annals.occurs.regular) hosts.changes
  | @enter m m' log annals h ran ih =>
    have turns := (Exec.Leads.enter none h m).of_ok ran
    exact annals.occurs.follows_of_unaltered (annals.occurs.enter h ran) ih
      (turns.unaltered nofun annals.occurs.regular) turns.changes
  | @refuse m m' log stop annals h ran ih =>
    have turns := ((Exec.Leads.enter none h m).of_error ran).trans (.conclude m' stop)
    exact annals.occurs.follows_of_unaltered (annals.occurs.refuse h ran) ih
      (turns.unaltered nofun annals.occurs.regular) turns.changes
  | @step m m' log annals ran ih =>
    have follows := annals.occurs.follows_of_step ih ran
    cases altered : m.altered? <;> rwa [altered] at follows
  | @stop m m' log stop annals ran ih =>
    have turns := (Exec.Leads.step none m).of_error ran
    have concluded : m'.Turns none (m'.conclude stop).2 := .conclude m' stop
    have regular := Changes.regular turns.changes annals.occurs.regular
    exact annals.occurs.follows_of_unaltered (annals.occurs.stop ran) ih
      ((annals.occurs.unaltered_of_stop ran).trans (concluded.unaltered nofun regular))
      (turns.changes.trans concluded.changes)

/-- Classes and instances are flat. Their tables hold what replaying the annals gives, where a class
that inherits copies what the other class had at that moment. An instruction that reads or invokes a
property of an instance finds the field, or else the method if it is an object; if there is neither,
it fails for want of the property. -/
theorem Annals.flat_objects (annals : m.Annals log) :
    (∀ cls methods, m.heap.methods? cls = some methods →
      m.heap.named? methods = (Roster.replay log).methods cls) ∧
    (∀ inst cls fields, m.heap.instance? inst = some (cls, fields) →
      m.heap.named? fields = (Roster.replay log).fields inst) ∧
    ∀ inst cls fields instruction key name, m.heap.instance? inst = some (cls, fields) →
      m.next? = some instruction → m.name? (instruction.operands.getD 0 0) = some key →
      m.heap.text? key.handle = some name →
      (instruction.opcode = .getProperty → m.stack.back? = some (.object inst) →
        m.Reads inst name ((Roster.replay log).property? inst cls name)) ∧
      ∀ count, instruction.opcode = .invoke → instruction.operands.getD 1 0 = count →
        count < m.stack.size → m.stack[m.stack.size - 1 - count]? = some (.object inst) →
        m.Calls count name ((Roster.replay log).property? inst cls name) := by
  have follows := annals.follows
  refine ⟨follows.methods, follows.fields,
    fun inst cls fields instruction key name found next named text => ?_⟩
  rw [← follows.property?_eq annals.occurs.intact.toSound.heap found (key?_of_name? named) text]
  refine ⟨fun op top => annals.occurs.reads next op named text top found, ?_⟩
  rintro count op rfl inside at_
  exact calls_of_invoke next op named text inside at_ found

/-- What the next steps do to classes and instances, the latest first. -/
def alterations : (bound : Nat) → Machine → List Alteration
  | 0, _ => []
  | bound + 1, m => alterations bound (m.left Exec.step none) ++ m.altered?.toList

/-- Annals of steps that all go through. -/
theorem Annals.steps (annals : m.Annals log) (bound : Nat) (goes : (m.steps bound).1 = none) :
    (m.steps bound).2.Annals (m.alterations bound ++ log) := by
  induction bound generalizing m log with
  | zero => exact annals
  | succ bound ih =>
    obtain ⟨m', ran, eq⟩ := exists_step_of_steps goes
    have left : m.left Exec.step none = m' := by rw [Machine.left, ran]
    rw [eq] at goes ⊢
    rw [alterations, left, List.append_assoc]
    exact ih (annals.step ran) goes

theorem Annals.left_enter (annals : m.Annals log) {function : Handle}
    (goes : m.stopped? (Machine.enter function) none = none) :
    (m.left (Machine.enter function) none).Annals log :=
  annals.enter function (eq_ok_of_stopped? goes)

/-- A script that makes a class inherit a method, changes the other class afterwards, makes an
instance and sets a field of it, and then reads the method. -/
def inheritingScript : Machine :=
  let (method, m) := (start {} default .zero).intern "m" []
  let (field, m) := m.intern "f" []
  let (g, m) := m.allocate (.function (.script default)) []
  let code := #[Opcode.newClass.byte, 0, Opcode.newClass.byte, 0,
    Opcode.constant.byte, 2, Opcode.method.byte, 0, Opcode.getLocal.byte, 1, Opcode.inherit.byte,
    Opcode.constant.byte, 3, Opcode.method.byte, 0, Opcode.getLocal.byte, 1, Opcode.call.byte, 0,
    Opcode.getLocal.byte, 3, Opcode.constant.byte, 3, Opcode.setProperty.byte, 1, Opcode.pop.byte,
    Opcode.getProperty.byte, 0]
  let constants := #[.object method, .object field, .object g, .number (.ofNat 7)]
  let (function, m) := m.allocate (.function (.script ⟨code, #[], constants⟩)) []
  m.left (enter function) none

/-- The script is about to read the method. -/
def inheriting : Machine := (inheritingScript.steps 14).2

/-- The instance finds the method that its class has copied. -/
theorem flat_objects_inheriting :
    inheriting.Annals [.field ⟨10⟩ "f" (.number (.ofNat 7)),
      .method ⟨9⟩ "m" (.number (.ofNat 7)), .inherit ⟨8⟩ ⟨9⟩, .method ⟨9⟩ "m" (.object ⟨5⟩)] ∧
    (∃ methods, inheriting.heap.methods? ⟨8⟩ = some methods ∧
      inheriting.heap.named? methods "m" = some (.object ⟨5⟩)) ∧
    (∃ fields, inheriting.heap.instance? ⟨10⟩ = some (⟨8⟩, fields) ∧
      inheriting.heap.named? fields "f" = some (.number (.ofNat 7))) ∧
    inheriting.Reads ⟨10⟩ "m" (some (.method ⟨5⟩)) := by
  have entered : inheritingScript.Annals [] := by
    refine .left_enter ?_ (by decide +kernel)
    have named := ((Annals.start {} default .zero).host (.intern "m" [])).host (.intern "f" [])
    exact (named.host (.function _ [])).host (.function _ [])
  have annals : inheriting.Annals [.field ⟨10⟩ "f" (.number (.ofNat 7)),
      .method ⟨9⟩ "m" (.number (.ofNat 7)), .inherit ⟨8⟩ ⟨9⟩, .method ⟨9⟩ "m" (.object ⟨5⟩)] := by
    have done : inheritingScript.alterations 14 = [.field ⟨10⟩ "f" (.number (.ofNat 7)),
        .method ⟨9⟩ "m" (.number (.ofNat 7)), .inherit ⟨8⟩ ⟨9⟩, .method ⟨9⟩ "m" (.object ⟨5⟩)] := by
      decide +kernel
    have annals := entered.steps 14 (by decide +kernel)
    rwa [done, List.append_nil] at annals
  have copies : (inheriting.heap.methods? ⟨8⟩).isSome := by decide +kernel
  have made : (inheriting.heap.instance? ⟨10⟩).map Prod.fst = some ⟨8⟩ := by
    decide +kernel
  have next : inheriting.next? = some ⟨.getProperty, [0]⟩ := by decide +kernel
  have key : inheriting.name? 0 = some ⟨⟨3⟩, Hash.ofText "m"⟩ := by decide +kernel
  have text : inheriting.heap.text? ⟨3⟩ = some "m" := by decide +kernel
  have top : inheriting.stack.back? = some (.object ⟨10⟩) := by decide +kernel
  -- From here on it does not matter how the machine has come about.
  clear entered
  generalize inheriting = m at *
  obtain ⟨table, copied⟩ := Option.isSome_iff_exists.mp copies
  obtain ⟨⟨_, table'⟩, found, rfl⟩ := Option.map_eq_some_iff.mp made
  obtain ⟨methods, fields, properties⟩ := annals.flat_objects
  refine ⟨annals, ⟨table, copied, ?_⟩, ⟨table', found, ?_⟩, ?_⟩
  · rw [methods _ _ copied]
    rfl
  · rw [fields _ _ _ found]
    rfl
  · exact (properties _ _ _ _ _ _ found next key text).1 rfl top

end Machine

end ScriptMachine
