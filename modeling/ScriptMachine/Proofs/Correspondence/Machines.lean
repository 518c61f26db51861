/-
# Machines that correspond

Two machines correspond if they hold matching values in the same places, and
the pairing is one to one and pairs live handles of matching objects. Nothing is
said about the objects that no pair stands for, about what objects are charged
and about what is recorded, so that the machines may collect at different times.

Two runs are followed by a pairing that grows from the one at their origin.
What the machines have printed since then is the same.

## Main definitions

* `Machine.Parallel` — the machines hold matching values in the same places
* `Machine.Corresponds` — the machines correspond under a pairing
* `Machine.Related` — two runs from an origin have come to corresponding machines

## Main results

* `Related.linked` — all that related machines hold is linked
* `Related.allocate`, `Related.intern`, `Related.capture`, `Related.closeFrom` — what keeps
  machines related
-/

import ScriptMachine.Proofs.Correspondence.Display
import ScriptMachine.Proofs.Machine.Actions

namespace ScriptMachine

open Heap

/-- The frames are at the same point of matching calls. -/
structure Frame.Matches (p : Pairing) (f g : Frame) : Prop where
  closure : p f.closure g.closure
  function : p f.function g.function
  ip : f.ip = g.ip
  base : f.base = g.base

/-- The captured variables are in the same slot. -/
structure OpenUpvalue.Matches (p : Pairing) (e e' : OpenUpvalue) : Prop where
  slot : e.slot = e'.slot
  upvalue : p e.upvalue e'.upvalue

/-- Where two runs begin: which handles stand for each other, and what has been printed before. -/
structure Origin where
  pairing : Pairing
  before₁ : ByteArray
  before₂ : ByteArray

theorem forall₂_imp_of_mem {α β : Type} {r s : α → β → Prop} {xs : List α} {ys : List β}
    (related : List.Forall₂ r xs ys) (le : ∀ x ∈ xs, ∀ y ∈ ys, r x y → s x y) :
    List.Forall₂ s xs ys := by
  induction related with
  | nil => exact .nil
  | cons same _ ih =>
    refine .cons (le _ List.mem_cons_self _ List.mem_cons_self same) (ih fun x mem y mem' => ?_)
    exact le x (List.mem_cons_of_mem _ mem) y (List.mem_cons_of_mem _ mem')

namespace Machine

/-- The machines hold matching values in the same places. -/
structure Parallel (p : Pairing) (m₁ m₂ : Machine) : Prop where
  stack : Pointwise (Value.Matches p) m₁.stack m₂.stack
  frames : List.Forall₂ (Frame.Matches p) m₁.frames m₂.frames
  openUpvalues : List.Forall₂ (OpenUpvalue.Matches p) m₁.openUpvalues m₂.openUpvalues
  globals : m₁.globals.Matches p m₂.globals
  initKey : m₁.initKey.Matches p m₂.initKey

/-- The machines hold matching values, and the pairing is a bijection between live handles that
preserves the contents of objects. -/
structure Corresponds (p : Pairing) (m₁ m₂ : Machine) : Prop extends Parallel p m₁ m₂ where
  unique : p.OneToOne
  objects : ∀ h₁ h₂, p h₁ h₂ → ∃ o₁ o₂, m₁.heap.get? h₁ = some o₁ ∧ m₂.heap.get? h₂ = some o₂ ∧
    o₁.Matches p o₂

/-- The links between the heaps of two machines. -/
abbrev Links (p : Pairing) (m₁ m₂ : Machine) : Pairing := Linked p m₁.heap m₂.heap

/-- Two runs have come to these machines: they hold matching values, the heaps match, and the same
has been printed. -/
structure Related (origin : Origin) (p : Pairing) (m₁ m₂ : Machine) : Prop
    extends Parallel p m₁ m₂ where
  intact₁ : m₁.Intact .live
  intact₂ : m₂.Intact .live
  heaps : Heap.Matches p m₁.heap m₂.heap
  extends_ : ∀ h₁ h₂, origin.pairing h₁ h₂ → p h₁ h₂
  framesMax : m₁.config.framesMax = m₂.config.framesMax
  slotsPerFrame : m₁.config.slotsPerFrame = m₂.config.slotsPerFrame
  room : m₁.sink.room = m₂.sink.room
  printed : ∃ bytes, m₁.sink.written = origin.before₁ ++ bytes ∧
    m₂.sink.written = origin.before₂ ++ bytes

variable {p q : Pairing} {origin : Origin} {m m₁ m₂ : Machine} {h h₁ h₂ : Handle} {v v₁ v₂ : Value}

/-! ## Linked values -/

/-- If the host promises live handles, then all that a machine keeps alive is live. -/
theorem Sound.contains_of_mem_roots (sound : m.Sound .live) (mem : h ∈ m.roots) :
    m.heap.contains h := by
  simp only [roots, List.mem_append, List.mem_filterMap, List.mem_flatMap, List.mem_map,
    List.mem_singleton] at mem
  rcases mem with (((⟨v, mem, eq⟩ | ⟨f, mem, here⟩) | ⟨e, mem, rfl⟩) | mem) | rfl
  · exact sound.stack v (Array.mem_toList_iff.mp mem) h eq
  · rcases List.mem_cons.mp here with rfl | here
    · exact contains_of_kind? (sound.closures f mem)
    · rw [List.mem_singleton.mp here]
      exact contains_of_kind? (sound.functions f mem)
  · exact contains_of_kind? (sound.captured e mem)
  · exact sound.globals.contains mem
  · exact contains_of_kind? (kind?_of_key? sound.initKey)

/-- Another pairing will do if it pairs what the machines keep alive. -/
theorem Parallel.imp (parallel : Parallel p m₁ m₂)
    (le : ∀ h ∈ m₁.roots, ∀ k ∈ m₂.roots, p h k → q h k) : Parallel q m₁ m₂ where
  stack := parallel.stack.imp fun _ mem _ mem' same => same.imp fun h k eq eq' =>
    le h (mem_roots_stack mem eq) k (mem_roots_stack mem' eq')
  frames := forall₂_imp_of_mem parallel.frames fun _ mem _ mem' same =>
    ⟨le _ (mem_roots_closure mem) _ (mem_roots_closure mem') same.closure,
      le _ (mem_roots_function mem) _ (mem_roots_function mem') same.function, same.ip, same.base⟩
  openUpvalues := forall₂_imp_of_mem parallel.openUpvalues fun _ mem _ mem' same =>
    ⟨same.slot, le _ (mem_roots_upvalue mem) _ (mem_roots_upvalue mem') same.upvalue⟩
  globals := parallel.globals.imp fun h mem k mem' =>
    le h (mem_roots_globals mem) k (mem_roots_globals mem')
  initKey := ⟨le _ (mem_roots_initKey m₁) _ (mem_roots_initKey m₂) parallel.initKey.handle,
    parallel.initKey.hash⟩

theorem Parallel.mono (parallel : Parallel p m₁ m₂) (le : ∀ h k, p h k → q h k) :
    Parallel q m₁ m₂ := parallel.imp fun h _ k _ => le h k

/-- All that related machines hold is linked. -/
theorem Related.linked (related : Related origin p m₁ m₂) :
    Parallel (Links p m₁ m₂) m₁ m₂ :=
  related.toParallel.imp fun _ mem _ mem' paired =>
    ⟨paired, related.intact₁.contains_of_mem_roots mem, related.intact₂.contains_of_mem_roots mem'⟩

theorem Related.alike (related : Related origin p m₁ m₂) :
    Alike p m₁.heap m₂.heap m₁.globals m₂.globals :=
  ⟨related.linked.globals, related.intact₁.globals, related.intact₂.globals⟩

theorem Related.initNamed (related : Related origin p m₁ m₂) :
    Named p m₁.heap m₂.heap m₁.initKey m₂.initKey :=
  ⟨related.linked.initKey.handle, related.intact₁.initKey, related.intact₂.initKey⟩

/-- Related machines correspond under the links between their heaps. -/
theorem Related.corresponds (related : Related origin p m₁ m₂) :
    Corresponds (Links p m₁ m₂) m₁ m₂ where
  toParallel := related.linked
  unique := related.heaps.unique
  objects _ _ linked := related.heaps.get? linked

/-! ## Replacing a part of the machines -/

theorem Related.withStack {stack₁ stack₂ : Array Value} (related : Related origin p m₁ m₂)
    (same : Pointwise (Value.Matches (Links p m₁ m₂)) stack₁ stack₂) :
    Related origin p { m₁ with stack := stack₁ } { m₂ with stack := stack₂ } := by
  refine { related with stack := ?_, intact₁ := ?_, intact₂ := ?_ }
  · exact same.imp fun _ _ _ _ same => matches_of_linked same
  · apply related.intact₁.withStack
    intro v mem
    obtain ⟨w, same⟩ := same.exists_right mem
    exact (held_of_linked same).1
  · apply related.intact₂.withStack
    intro w mem
    obtain ⟨v, same⟩ := same.exists_left mem
    exact (held_of_linked same).2

theorem Related.withFrames {frames₁ frames₂ : List Frame} (related : Related origin p m₁ m₂)
    (same : List.Forall₂ (Frame.Matches p) frames₁ frames₂)
    (intact₁ : Intact .live { m₁ with frames := frames₁ })
    (intact₂ : Intact .live { m₂ with frames := frames₂ }) :
    Related origin p { m₁ with frames := frames₁ } { m₂ with frames := frames₂ } :=
  { related with frames := same, intact₁, intact₂ }

/-- A call of linked closures may be entered in both machines. -/
theorem Related.pushFrame {f₁ f₂ : Frame} (related : Related origin p m₁ m₂)
    (same : f₁.Matches (Links p m₁ m₂) f₂) (closure : m₁.heap.kind? f₁.closure = some .closure)
    (function : m₁.heap.kind? f₁.function = some .function) :
    Related origin p { m₁ with frames := f₁ :: m₁.frames }
      { m₂ with frames := f₂ :: m₂.frames } := by
  have closure₂ := related.heaps.kind? same.closure ▸ closure
  have function₂ := related.heaps.kind? same.function ▸ function
  refine related.withFrames (.cons ?_ related.frames) ?_ ?_
  · exact ⟨same.closure.paired, same.function.paired, same.ip, same.base⟩
  · exact related.intact₁.pushFrame closure function
  · exact related.intact₂.pushFrame closure₂ function₂

/-- The innermost call may be left in both machines. -/
theorem Related.popFrame (related : Related origin p m₁ m₂) :
    Related origin p { m₁ with frames := m₁.frames.tail } { m₂ with frames := m₂.frames.tail } := by
  refine related.withFrames ?_ related.intact₁.popFrame related.intact₂.popFrame
  have frames := related.frames
  generalize m₁.frames = frames₁ at frames ⊢
  generalize m₂.frames = frames₂ at frames ⊢
  cases frames with
  | nil => exact .nil
  | cons _ rest => exact rest

theorem Related.withIp (related : Related origin p m₁ m₂) (ip : Nat) :
    Related origin p (m₁.withIp ip) (m₂.withIp ip) := by
  refine related.withFrames ?_ (related.intact₁.withIp ip) (related.intact₂.withIp ip)
  have frames := related.frames
  generalize m₁.frames = frames₁ at frames ⊢
  generalize m₂.frames = frames₂ at frames ⊢
  cases frames with
  | nil => exact .nil
  | cons same rest => exact .cons ⟨same.closure, same.function, rfl, same.base⟩ rest

theorem Related.withGlobals {globals₁ globals₂ : Table} (related : Related origin p m₁ m₂)
    (alike : Alike p m₁.heap m₂.heap globals₁ globals₂) :
    Related origin p { m₁ with globals := globals₁ } { m₂ with globals := globals₂ } :=
  { related with
    globals := alike.matches_.imp fun _ _ _ _ linked => linked.paired
    intact₁ := related.intact₁.withGlobals alike.sound₁
    intact₂ := related.intact₂.withGlobals alike.sound₂ }

theorem Related.withEvents (related : Related origin p m₁ m₂)
    (events₁ events₂ : List ExecutionEvent) :
    Related origin p { m₁ with events := events₁ } { m₂ with events := events₂ } :=
  { related with
    intact₁ := related.intact₁.withEvents events₁
    intact₂ := related.intact₂.withEvents events₂ }

theorem Related.withHeap {heap₁ heap₂ : Heap} (related : Related origin p m₁ m₂)
    (same : Heap.Matches p heap₁ heap₂) (intact₁ : Intact .live { m₁ with heap := heap₁ })
    (intact₂ : Intact .live { m₂ with heap := heap₂ }) :
    Related origin p { m₁ with heap := heap₁ } { m₂ with heap := heap₂ } :=
  { related with heaps := same, intact₁, intact₂ }

/-- The pairing may grow. -/
theorem Related.grow {heap₁ heap₂ : Heap} (related : Related origin p m₁ m₂)
    (le : ∀ h k, p h k → q h k) (same : Heap.Matches q heap₁ heap₂)
    (intact₁ : Intact .live { m₁ with heap := heap₁ })
    (intact₂ : Intact .live { m₂ with heap := heap₂ }) :
    Related origin q { m₁ with heap := heap₁ } { m₂ with heap := heap₂ } :=
  { related with
    toParallel := ⟨(related.toParallel.mono le).stack, (related.toParallel.mono le).frames,
      (related.toParallel.mono le).openUpvalues, (related.toParallel.mono le).globals,
      (related.toParallel.mono le).initKey⟩
    heaps := same
    extends_ := fun h k paired => le h k (related.extends_ h k paired)
    intact₁
    intact₂ }

/-- Sinks with the same room take the same bytes of a text. -/
theorem write_alike {sink₁ sink₂ : Sink} (room : sink₁.room = sink₂.room) (text : String) :
    (sink₁.write text).1 = (sink₂.write text).1 ∧
      (sink₁.write text).2.room = (sink₂.write text).2.room ∧
      ∃ more, (sink₁.write text).2.written = sink₁.written ++ more ∧
        (sink₂.write text).2.written = sink₂.written ++ more := by
  obtain ⟨written₁, room₁⟩ := sink₁
  obtain ⟨written₂, room₂⟩ := sink₂
  obtain rfl : room₁ = room₂ := room
  -- What does not fit is cut off, after the same bytes.
  cases room₁ with
  | none => exact ⟨rfl, rfl, text.toUTF8, rfl, rfl⟩
  | some left =>
    unfold Sink.write
    by_cases fits : text.toUTF8.size ≤ left
    · simp only [if_pos fits]
      exact ⟨trivial, trivial, text.toUTF8, rfl, rfl⟩
    · simp only [if_neg fits]
      exact ⟨trivial, trivial, text.toUTF8.extract 0 left, rfl, rfl⟩

theorem Related.write (related : Related origin p m₁ m₂) (text : String) :
    Related origin p { m₁ with sink := (m₁.sink.write text).2 }
      { m₂ with sink := (m₂.sink.write text).2 } := by
  obtain ⟨bytes, printed₁, printed₂⟩ := related.printed
  obtain ⟨-, room, more, written₁, written₂⟩ := write_alike related.room text
  refine { related with room, printed := ⟨bytes ++ more, ?_, ?_⟩, intact₁ := ?_, intact₂ := ?_ }
  · exact related.intact₁.withSink _
  · exact related.intact₂.withSink _
  · rw [written₁, printed₁, ByteArray.append_assoc]
  · rw [written₂, printed₂, ByteArray.append_assoc]

/-! ## Changing objects -/

theorem Related.recharged (related : Related origin p m₁ m₂) (h₁ h₂ : Handle) :
    Related origin p { m₁ with heap := m₁.heap.recharge h₁ }
      { m₂ with heap := m₂.heap.recharge h₂ } := by
  have intact₁ := related.intact₁.recharged h₁
  have intact₂ := related.intact₂.recharged h₂
  exact related.withHeap (related.heaps.retain (retains_recharge _ h₁) (retains_recharge _ h₂)
    intact₁.heap intact₂.heap) intact₁ intact₂

/-- Linked objects may be changed alike. -/
theorem Related.modified {f₁ f₂ : Object → Object} (related : Related origin p m₁ m₂)
    (linked : Links p m₁ m₂ h₁ h₂)
    (alike : ∀ o₁ o₂, m₁.heap.get? h₁ = some o₁ → m₂.heap.get? h₂ = some o₂ →
      (f₁ o₁).Matches p (f₂ o₂))
    (intact₁ : Intact .live { m₁ with heap := m₁.heap.modify h₁ f₁ })
    (intact₂ : Intact .live { m₂ with heap := m₂.heap.modify h₂ f₂ }) :
    Related origin p { m₁ with heap := m₁.heap.modify h₁ f₁ }
      { m₂ with heap := m₂.heap.modify h₂ f₂ } :=
  related.withHeap (related.heaps.modify linked alike intact₁.heap intact₂.heap) intact₁ intact₂

theorem Related.setFields {owner₁ owner₂ : Handle} {old₁ old₂ fields₁ fields₂ : Table}
    (related : Related origin p m₁ m₂) (linked : Links p m₁ m₂ h₁ h₂)
    (found₁ : m₁.heap.get? h₁ = some (.inst owner₁ old₁))
    (found₂ : m₂.heap.get? h₂ = some (.inst owner₂ old₂))
    (alike : Alike p m₁.heap m₂.heap fields₁ fields₂) :
    Related origin p { m₁ with heap := m₁.heap.setFields h₁ fields₁ }
      { m₂ with heap := m₂.heap.setFields h₂ fields₂ } := by
  refine related.modified linked (fun o₁ o₂ at₁ at₂ => ?_)
    (related.intact₁.setFields found₁ alike.sound₁)
    (related.intact₂.setFields found₂ alike.sound₂)
  have matching := related.heaps.objects h₁ h₂ o₁ o₂ linked.paired at₁ at₂
  obtain rfl : .inst owner₁ old₁ = o₁ := Option.some.inj (found₁.symm.trans at₁)
  obtain rfl : .inst owner₂ old₂ = o₂ := Option.some.inj (found₂.symm.trans at₂)
  cases matching with
  | inst owned _ =>
    exact .inst owned (alike.matches_.imp fun _ _ _ _ linked => linked.paired)

theorem Related.setMethods {name₁ name₂ : Handle} {old₁ old₂ methods₁ methods₂ : Table}
    (related : Related origin p m₁ m₂) (linked : Links p m₁ m₂ h₁ h₂)
    (found₁ : m₁.heap.get? h₁ = some (.cls name₁ old₁))
    (found₂ : m₂.heap.get? h₂ = some (.cls name₂ old₂))
    (alike : Alike p m₁.heap m₂.heap methods₁ methods₂) :
    Related origin p { m₁ with heap := m₁.heap.setMethods h₁ methods₁ }
      { m₂ with heap := m₂.heap.setMethods h₂ methods₂ } := by
  refine related.modified linked (fun o₁ o₂ at₁ at₂ => ?_)
    (related.intact₁.setMethods found₁ alike.sound₁)
    (related.intact₂.setMethods found₂ alike.sound₂)
  have matching := related.heaps.objects h₁ h₂ o₁ o₂ linked.paired at₁ at₂
  obtain rfl : .cls name₁ old₁ = o₁ := Option.some.inj (found₁.symm.trans at₁)
  obtain rfl : .cls name₂ old₂ = o₂ := Option.some.inj (found₂.symm.trans at₂)
  cases matching with
  | cls named _ =>
    exact .cls named (alike.matches_.imp fun _ _ _ _ linked => linked.paired)

theorem Related.pushCaptured {u₁ u₂ : Handle} (related : Related origin p m₁ m₂)
    (linked : Links p m₁ m₂ h₁ h₂) (live : m₁.heap.kind? h₁ = some .closure)
    (captured : Links p m₁ m₂ u₁ u₂) (kind : m₁.heap.kind? u₁ = some .upvalue) :
    Related origin p { m₁ with heap := m₁.heap.pushCaptured h₁ u₁ }
      { m₂ with heap := m₂.heap.pushCaptured h₂ u₂ } := by
  have kind₂ := related.heaps.kind? captured ▸ kind
  obtain ⟨o₁, o₂, found₁, found₂, matching⟩ := related.heaps.get? linked
  rw [kind?_of_get? found₁] at live
  cases matching <;> cases live
  refine related.modified linked (fun o₁ o₂ at₁ at₂ => ?_)
    (related.intact₁.pushCaptured found₁ kind) (related.intact₂.pushCaptured found₂ kind₂)
  have matching := related.heaps.objects h₁ h₂ o₁ o₂ linked.paired at₁ at₂
  obtain rfl := Option.some.inj (found₁.symm.trans at₁)
  obtain rfl := Option.some.inj (found₂.symm.trans at₂)
  cases matching with
  | closure function upvalues => exact .closure function (upvalues.push captured.paired)

theorem Related.setClosed {old₁ old₂ : Value} (related : Related origin p m₁ m₂)
    (linked : Links p m₁ m₂ h₁ h₂)
    (found₁ : m₁.heap.get? h₁ = some (.upvalue (.closed old₁)))
    (found₂ : m₂.heap.get? h₂ = some (.upvalue (.closed old₂)))
    (same : v₁.Matches (Links p m₁ m₂) v₂) :
    Related origin p { m₁ with heap := m₁.heap.setUpvalue h₁ (.closed v₁) }
      { m₂ with heap := m₂.heap.setUpvalue h₂ (.closed v₂) } := by
  obtain ⟨held₁, held₂⟩ := held_of_linked same
  exact related.modified linked (fun _ _ _ _ => .closed (matches_of_linked same))
    (related.intact₁.setClosed found₁ held₁) (related.intact₂.setClosed found₂ held₂)

/-! ## New objects -/

/-- Matching objects may be put into the heaps. Both machines may collect, or only one of them, or
none. -/
theorem Related.allocate {o₁ o₂ : Object} (related : Related origin p m₁ m₂)
    (extra₁ extra₂ : List Handle) (same : o₁.Matches (Links p m₁ m₂) o₂)
    (other : o₁.kind ≠ .string) (closed : ∀ slot, o₁ ≠ .upvalue (.opened slot))
    (fits₁ : o₁.Sound .live m₁.heap ⟨m₁.heap.cells.size⟩)
    (fits₂ : o₂.Sound .live m₂.heap ⟨m₂.heap.cells.size⟩) :
    Related origin (p.join (m₁.allocate o₁ extra₁).1 (m₂.allocate o₂ extra₂).1)
      (m₁.allocate o₁ extra₁).2 (m₂.allocate o₂ extra₂).2 := by
  -- Matching objects are of the same kind.
  have closed₂ (slot : Nat) : o₂ ≠ .upvalue (.opened slot) := by
    rintro rfl
    cases same
    exact closed slot rfl
  have intact₁ := related.intact₁.allocate extra₁ other closed fits₁
  have intact₂ := related.intact₂.allocate extra₂ (same.kind ▸ other) closed₂ fits₂
  have allocated₁ := allocated_allocate related.intact₁.heap.clean o₁ (m₁.roots ++ extra₁)
  have allocated₂ := allocated_allocate related.intact₂.heap.clean o₂ (m₂.roots ++ extra₂)
  exact related.grow (fun _ _ paired => .inl paired)
    (related.heaps.allocated allocated₁ allocated₂ (same.imp fun _ _ _ _ linked => linked.paired)
      intact₁.heap intact₂.heap) intact₁ intact₂

theorem Related.intern (related : Related origin p m₁ m₂) (text : String)
    (extra₁ extra₂ : List Handle) :
    Related origin (p.join (m₁.intern text extra₁).1 (m₂.intern text extra₂).1)
      (m₁.intern text extra₁).2 (m₂.intern text extra₂).2 :=
  related.grow (fun _ _ paired => .inl paired) (related.heaps.intern text _ _)
    (related.intact₁.intern text extra₁) (related.intact₂.intern text extra₂)

/-! ## Captured variables -/

section

variable {entries₁ entries₂ : List OpenUpvalue} {slot : Nat}

theorem forall₂_insertOpen {e₁ e₂ : OpenUpvalue} (same : e₁.Matches p e₂)
    (entries : List.Forall₂ (OpenUpvalue.Matches p) entries₁ entries₂) :
    List.Forall₂ (OpenUpvalue.Matches p) (insertOpen e₁ entries₁) (insertOpen e₂ entries₂) := by
  induction entries with
  | nil => exact .cons same .nil
  | @cons first₁ first₂ _ _ here rest ih =>
    unfold insertOpen
    -- The slots decide on the place, and they are the same.
    rw [here.slot, same.slot]
    by_cases below : first₂.slot < e₂.slot
    · rw [if_pos below, if_pos below]
      exact .cons same (.cons here rest)
    · rw [if_neg below, if_neg below]
      exact .cons here ih

theorem forall₂_dropOpen (entries : List.Forall₂ (OpenUpvalue.Matches p) entries₁ entries₂)
    (slot : Nat) : List.Forall₂ (OpenUpvalue.Matches p) (entries₁.dropWhile (slot ≤ ·.slot))
      (entries₂.dropWhile (slot ≤ ·.slot)) := by
  induction entries with
  | nil => exact .nil
  | @cons first₁ first₂ _ _ here rest ih =>
    rw [List.dropWhile_cons, List.dropWhile_cons, here.slot]
    by_cases above : slot ≤ first₂.slot
    · simpa only [above, decide_true, if_true] using ih
    · simpa only [above, decide_false, Bool.false_eq_true, if_false] using .cons here rest

theorem Parallel.openUpvalue? (parallel : Parallel p m₁ m₂) (slot : Nat) :
    Option.Rel p (m₁.openUpvalue? slot) (m₂.openUpvalue? slot) := by
  have entries := parallel.openUpvalues
  unfold Machine.openUpvalue?
  generalize m₁.openUpvalues = entries₁ at entries
  generalize m₂.openUpvalues = entries₂ at entries
  induction entries with
  | nil => exact .none
  | @cons first₁ first₂ _ _ here rest ih =>
    rw [List.find?_cons, List.find?_cons, here.slot]
    cases first₂.slot == slot with
    | true => exact .some here.upvalue
    | false => exact ih

/-- A captured variable that neither machine has yet may be made in both. -/
theorem Related.capture (related : Related origin p m₁ m₂) (new₁ : m₁.openUpvalue? slot = none)
    (new₂ : m₂.openUpvalue? slot = none) :
    Related origin (p.join (m₁.allocate (.upvalue (.opened slot)) []).1
        (m₂.allocate (.upvalue (.opened slot)) []).1)
      { (m₁.allocate (.upvalue (.opened slot)) []).2 with
        openUpvalues := insertOpen ⟨slot, (m₁.allocate (.upvalue (.opened slot)) []).1⟩
          m₁.openUpvalues }
      { (m₂.allocate (.upvalue (.opened slot)) []).2 with
        openUpvalues := insertOpen ⟨slot, (m₂.allocate (.upvalue (.opened slot)) []).1⟩
          m₂.openUpvalues } := by
  have intact₁ := related.intact₁.capture new₁
  have intact₂ := related.intact₂.capture new₂
  have allocated₁ := allocated_allocate related.intact₁.heap.clean (.upvalue (.opened slot))
    (m₁.roots ++ [])
  have allocated₂ := allocated_allocate related.intact₂.heap.clean (.upvalue (.opened slot))
    (m₂.roots ++ [])
  -- The machines hold what they held before, and the new variable.
  have wider := related.toParallel.mono (q := p.join (m₁.allocate (.upvalue (.opened slot)) []).1
    (m₂.allocate (.upvalue (.opened slot)) []).1) fun _ _ paired => .inl paired
  exact { related with
    toParallel := ⟨wider.stack, wider.frames,
      forall₂_insertOpen ⟨rfl, .inr ⟨rfl, rfl⟩⟩ wider.openUpvalues, wider.globals, wider.initKey⟩
    intact₁
    intact₂
    heaps := related.heaps.allocated allocated₁ allocated₂ (.opened slot) intact₁.heap intact₂.heap
    extends_ := fun h k paired => .inl (related.extends_ h k paired) }

/-- Captured variables may be closed in both machines. -/
theorem Related.closeFrom (related : Related origin p m₁ m₂) (slot : Nat) :
    Related origin p (m₁.closeFrom slot) (m₂.closeFrom slot) := by
  have intact₁ := related.intact₁.closeFrom slot
  have intact₂ := related.intact₂.closeFrom slot
  have at₁ := related.intact₁.get?_closeFrom slot
  have at₂ := related.intact₂.get?_closeFrom slot
  have size₁ := size_cells_closeFrom related.intact₁.toSound slot
  have size₂ := size_cells_closeFrom related.intact₂.toSound slot
  have keeps₁ := keeps_closeFrom related.intact₁.toSound slot
  have keeps₂ := keeps_closeFrom related.intact₂.toSound slot
  -- What is live afterwards was live before, as an object of the same kind.
  have live {heap after : Heap} {k : Handle} (keeps : heap.Keeps after k)
      (live : after.contains k) : heap.contains k := by
    obtain ⟨kind, found⟩ := kind?_of_contains live
    exact contains_of_kind? (keeps.kind.symm.trans found)
  have heaps : Heap.Matches p (m₁.closeFrom slot).heap (m₂.closeFrom slot).heap := by
    apply related.heaps.replace intact₁.heap intact₂.heap size₁.ge size₂.ge
      (fun h _ _ => live (keeps₁ h)) (fun _ k _ => live (keeps₂ k))
    intro h k o o' paired linked found found'
    obtain ⟨o₁, o₂, old₁, old₂, -⟩ := related.heaps.get? linked
    have matching := related.heaps.objects h k o₁ o₂ paired old₁ old₂
    rw [at₁, old₁] at found
    rw [at₂, old₂] at found'
    cases matching with
    -- An open variable is closed over matching values, if its slot is there in both stacks.
    | opened j =>
      obtain rfl := Option.some.inj found
      obtain rfl := Option.some.inj found'
      by_cases above : slot ≤ j
      · rw [if_pos above, if_pos above]
        apply Object.Matches.closed
        have values := related.stack.getElem? j
        generalize m₁.stack[j]? = v₁ at values
        generalize m₂.stack[j]? = v₂ at values
        cases values with
        | none => exact .nil
        | some same => exact same
      · rw [if_neg above, if_neg above]
        exact .opened j
    | _ =>
      obtain rfl := Option.some.inj found
      obtain rfl := Option.some.inj found'
      exact related.heaps.objects h k _ _ paired old₁ old₂
  have entries := forall₂_dropOpen related.openUpvalues slot
  simp only [closeFrom_eq] at intact₁ intact₂ heaps ⊢
  exact { related with openUpvalues := entries, intact₁, intact₂, heaps }

/-- Closing captured variables frees nothing, so what was linked stays so. -/
theorem Related.links_closeFrom (related : Related origin p m₁ m₂) (slot : Nat)
    (linked : Links p m₁ m₂ h₁ h₂) : Links p (m₁.closeFrom slot) (m₂.closeFrom slot) h₁ h₂ where
  paired := linked.paired
  live₁ := (keeps_closeFrom related.intact₁.toSound slot h₁).contains linked.live₁
  live₂ := (keeps_closeFrom related.intact₂.toSound slot h₂).contains linked.live₂

end

/-- Machines may be brought to rest. -/
theorem Related.reset (related : Related origin p m₁ m₂) : Related origin p m₁.reset m₂.reset := by
  have closed := related.closeFrom 0
  have empty : Related origin p { m₁.closeFrom 0 with stack := #[] }
      { m₂.closeFrom 0 with stack := #[] } := closed.withStack (.empty _)
  exact empty.withFrames .nil related.intact₁.reset related.intact₂.reset

/-! ## Beginnings -/

/-- New machines correspond, whatever their settings are besides the limits. -/
theorem related_blank {config₁ config₂ : Config} {sink₁ sink₂ : Sink} (uptime₁ uptime₂ : Number)
    (framesMax : config₁.framesMax = config₂.framesMax)
    (slotsPerFrame : config₁.slotsPerFrame = config₂.slotsPerFrame)
    (room : sink₁.room = sink₂.room) :
    ∃ p, Related ⟨fun _ _ => False, sink₁.written, sink₂.written⟩ p
      (blank config₁ sink₁ uptime₁) (blank config₂ sink₂ uptime₂) := by
  have heaps := (matches_empty config₁ config₂).intern "init" [] []
  refine ⟨_, ⟨?_, .nil, .nil, ?_, ?_⟩, intact_blank .live config₁ sink₁ uptime₁,
    intact_blank .live config₂ sink₂ uptime₂, heaps, nofun, framesMax, slotsPerFrame, room, ?_⟩
  · exact .empty _
  · exact .empty _
  · exact ⟨.inr ⟨rfl, rfl⟩, rfl⟩
  · exact ⟨.empty, ByteArray.append_empty.symm, ByteArray.append_empty.symm⟩

/-- A host function may be made a global of both machines. -/
theorem Related.defineNative (related : Related origin p m₁ m₂) (native : Native) :
    ∃ q, Related origin q (m₁.defineNative native) (m₂.defineNative native) := by
  have interned := related.intern native.name [] []
  have text₁ := text?_intern related.intact₁.heap.canonical related.intact₁.heap.clean native.name
    (m₁.roots ++ [])
  have text₂ := text?_intern related.intact₂.heap.canonical related.intact₂.heap.clean native.name
    (m₂.roots ++ [])
  unfold Machine.defineNative
  simp only [intern_eq] at interned ⊢
  generalize (m₁.heap.intern native.name (m₁.roots ++ [])).1 = name₁ at interned text₁ ⊢
  generalize (m₁.heap.intern native.name (m₁.roots ++ [])).2 = heap₁ at interned text₁ ⊢
  generalize (m₂.heap.intern native.name (m₂.roots ++ [])).1 = name₂ at interned text₂ ⊢
  generalize (m₂.heap.intern native.name (m₂.roots ++ [])).2 = heap₂ at interned text₂ ⊢
  have allocated₁ := allocated_allocate interned.intact₁.heap.clean (.native native)
    (({ m₁ with heap := heap₁ } : Machine).roots ++ [name₁])
  have allocated₂ := allocated_allocate interned.intact₂.heap.clean (.native native)
    (({ m₂ with heap := heap₂ } : Machine).roots ++ [name₂])
  have after := interned.allocate [name₁] [name₂] (.native native) nofun nofun trivial trivial
  simp only [allocate_eq] at after ⊢
  -- The names are kept although the machines do not hold them yet.
  have keeps₁ := allocated₁.keeps (k := name₁)
    (.root (List.mem_append_left _ (List.mem_append_right _ List.mem_cons_self))
      (contains_of_text? text₁))
  have keeps₂ := allocated₂.keeps (k := name₂)
    (.root (List.mem_append_left _ (List.mem_append_right _ List.mem_cons_self))
      (contains_of_text? text₂))
  refine ⟨_, after.withGlobals (after.alike.insert after.heaps ⟨⟨?_, ?_, ?_⟩, ?_, ?_⟩ ?_)⟩
  · exact .inl (.inr ⟨rfl, rfl⟩)
  · exact keeps₁.contains (contains_of_text? text₁)
  · exact keeps₂.contains (contains_of_text? text₂)
  · rw [keeps₁.key?, key?_eq, text₁]
    rfl
  · rw [keeps₂.key?, key?_eq, text₂]
    rfl
  · exact .object ⟨.inr ⟨rfl, rfl⟩, contains_of_get? allocated₁.get?,
      contains_of_get? allocated₂.get?⟩

end Machine

end ScriptMachine
