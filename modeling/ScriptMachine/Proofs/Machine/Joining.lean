/-
# Strings are joined by their texts

Joining two values that have texts, at least one of them as a string, gives the
string of both texts one after the other. That string may be there already, or
it may be one of the operands, or it is made, and then a collection may come
first. In each case the operands and all else that the machine keeps alive are
untouched. Other operands are refused before anything is allocated.

So it does not matter how a row of strings is bracketed. The intermediate
strings differ, and some of them may have been freed by the time that others
are made; but the texts are the same in the end, and as there is one string for
a text, so are the results.

## Main definitions

* `Heap.Joins` — the text that two values are joined to
* `Heap.Preserves` — what some roots keep is the same in another heap
* `Bracketing`, `Bracketing.write` — a row of strings with brackets, and its code
* `Machine.Arrives` — the machine comes to an offset, and what it kept alive is as it was

## Main results

* `Exec.add_of_joins`, `Exec.add_of_not_joins` — what is joined, and what is refused
* `Bracketing.works` — the code of a row of strings leaves the string of their texts
* `Machine.Occurs.strings_joined` — strings are joined by their texts, with any brackets
-/

import ScriptMachine.Proofs.Machine.Computing

namespace ScriptMachine

open Heap

/-! ## What values are joined to -/

/-- Two values are joined to a text: strings and numbers are, but not two numbers. -/
inductive Heap.Joins (heap : Heap) : Value → Value → String → Prop
  | strings {h k : Handle} {s t : String} (left : heap.text? h = some s)
      (right : heap.text? k = some t) : Joins heap (.object h) (.object k) (s ++ t)
  | stringNumber {h : Handle} {s : String} (left : heap.text? h = some s) (n : Number) :
      Joins heap (.object h) (.number n) (s ++ n.precise)
  | numberString {k : Handle} {t : String} (n : Number) (right : heap.text? k = some t) :
      Joins heap (.number n) (.object k) (n.precise ++ t)

/-- The objects that the roots keep are the same in the other heap. -/
def Heap.Preserves (heap : Heap) (roots : List Handle) (after : Heap) : Prop :=
  ∀ h, heap.Reach roots h → after.get? h = heap.get? h

namespace Heap

variable {heap after last : Heap} {roots more : List Handle} {h : Handle} {text : String}
  {a b : Value}

theorem Preserves.refl (heap : Heap) (roots : List Handle) : heap.Preserves roots heap :=
  fun _ _ => rfl

/-- What was kept is kept in the other heap by the same roots. -/
theorem Preserves.reach (preserves : heap.Preserves roots after) (sub : roots ⊆ more)
    (reach : heap.Reach roots h) : after.Reach more h := by
  have live {k : Handle} (reach : heap.Reach roots k) : after.contains k := by
    obtain ⟨object, found⟩ := contains_iff_get?.1 reach.live
    exact contains_of_get? ((preserves k reach).trans found)
  -- What a kept object refers to, it refers to in the other heap as well.
  induction reach with
  | root mem there => exact .root (sub mem) (live (.root mem there))
  | reference reach found mem there ih =>
    exact .reference ih ((preserves _ reach).trans found) mem
      (live (.reference reach found mem there))

theorem Preserves.trans (preserves : heap.Preserves roots after) (sub : roots ⊆ more)
    (preserves' : after.Preserves more last) : heap.Preserves roots last :=
  fun h reach => (preserves' h (preserves.reach sub reach)).trans (preserves h reach)

theorem Preserves.text? (preserves : heap.Preserves roots after) (mem : h ∈ roots)
    (found : heap.text? h = some text) : after.text? h = some text := by
  have same := preserves h (.root mem (contains_of_text? found))
  rwa [Heap.text?, same, ← Heap.text?]

/-- Interning a text makes at most one string, and frees none of what is kept. -/
theorem Canonical.preserves_intern (canonical : heap.Canonical) (clean : heap.Clean)
    (text : String) (roots : List Handle) : heap.Preserves roots (heap.intern text roots).2 := by
  rcases interned_intern canonical clean text roots with ⟨-, same⟩ | ⟨-, allocated⟩
  · rw [same]
    exact .refl heap roots
  · exact fun h reach => allocated.get?_kept (reach.mono fun _ => List.mem_append_left _)

theorem isString_object (heap : Heap) (h : Handle) :
    heap.isString (.object h) = (heap.text? h).isSome := by
  rw [isString, Value.handle?, Option.bind_some, key?_eq, Option.isSome_map]

/-- Only strings and numbers have texts. -/
theorem exists_of_joinedText? {v : Value} (found : Exec.joinedText? heap v = some text) :
    (∃ h, v = .object h ∧ heap.text? h = some text) ∨ ∃ n, v = .number n ∧ n.precise = text := by
  cases v with
  | object h => exact .inl ⟨h, rfl, found⟩
  | number n => exact .inr ⟨n, rfl, Option.some.inj found⟩
  | nil | bool => cases found

/-- Both values have texts, and one of them has it as a string. -/
theorem joins_iff : heap.Joins a b text ↔ (heap.isString a ∨ heap.isString b) ∧
    ∃ s t, Exec.joinedText? heap a = some s ∧ Exec.joinedText? heap b = some t ∧
      s ++ t = text := by
  constructor
  · rintro (⟨left, right⟩ | ⟨left, n⟩ | ⟨n, right⟩)
    · exact ⟨.inl (by rw [isString_object, left]; rfl), _, _, left, right, rfl⟩
    · exact ⟨.inl (by rw [isString_object, left]; rfl), _, _, left, rfl, rfl⟩
    · exact ⟨.inr (by rw [isString_object, right]; rfl), _, _, rfl, right, rfl⟩
  · rintro ⟨string, s, t, left, right, rfl⟩
    obtain ⟨h, rfl, left⟩ | ⟨n, rfl, rfl⟩ := exists_of_joinedText? left
    · obtain ⟨k, rfl, right⟩ | ⟨n, rfl, rfl⟩ := exists_of_joinedText? right
      · exact .strings left right
      · exact .stringNumber left n
    · obtain ⟨k, rfl, right⟩ | ⟨_, rfl, rfl⟩ := exists_of_joinedText? right
      · exact .numberString n right
      · rcases string with string | string <;> cases string

end Heap

/-! ## Joining two values -/

namespace Exec

open Machine

variable {m : Machine} {below : Array Value} {a b : Value} {text : String}

/-- Two values are joined by interning the text of both, unless they have none. -/
theorem join_eq (a b : Value) : join a b none m =
    if m.heap.isString a ∨ m.heap.isString b then
      match joinedText? m.heap a, joinedText? m.heap b with
      | some left, some right =>
        (do discard pop; discard pop; push (.object (m.intern (left ++ right) []).1) : Exec Unit)
          none (m.intern (left ++ right) []).2
      | _, _ => .error (.failed .operandsMustBeNumbersOrStrings) m
    else .error (.failed .operandsMustBeNumbersOrStrings) m := by
  change (if (!m.heap.isString a && !m.heap.isString b) = true then _ else _ : Exec Unit) none m = _
  by_cases string : m.heap.isString a ∨ m.heap.isString b
  · rw [if_pos string, if_neg (by grind)]
    change (match joinedText? m.heap a, joinedText? m.heap b with
      | some _, some _ => _ | _, _ => _ : Exec Unit) none m = _
    cases joinedText? m.heap a <;> cases joinedText? m.heap b <;> rfl
  · rw [if_neg string, if_pos (by grind)]
    rfl

/-- The sum of two values that are not both numbers is that of their texts. -/
theorem add_eq_join (stack : m.stack = (below.push a).push b)
    (other : ¬∃ x y, a = .number x ∧ b = .number y) : add none m = join a b none m := by
  have two : 1 < m.stack.size := by simp [stack]
  have under : peek 1 none m = .ok a m :=
    peek_eq_getElem? two (by simp [stack, Array.getElem_push])
  have top : peek 0 none m = .ok b m := peek_eq (by rw [stack, Array.back?_push])
  refine (bind_eq under _).trans ((bind_eq top _).trans ?_)
  cases a <;> cases b
  case number.number => exact absurd ⟨_, _, rfl, rfl⟩ other
  all_goals rfl

theorem not_numbers_of_joins (joins : m.heap.Joins a b text) :
    ¬∃ x y, a = .number x ∧ b = .number y := by
  rintro ⟨x, y, rfl, rfl⟩
  cases joins

/-- Values that are joined to a text are replaced by its string. -/
theorem add_of_joins (regular : m.Regular) (stack : m.stack = (below.push a).push b)
    (joins : m.heap.Joins a b text) : ∃ r heap,
      add none m = .ok ⟨⟩ { m with heap, stack := below.push (.object r) } ∧
        heap.text? r = some text ∧ (∀ k, heap.text? k = some text → k = r) ∧
        m.heap.Preserves m.roots heap := by
  have canonical := regular.heap.canonical
  have clean := regular.heap.arises.clean
  have two : 1 < m.stack.size := by simp [stack]
  have left : m.stack.pop.pop = below := by rw [stack, Array.pop_push, Array.pop_push]
  have made := text?_intern canonical clean text (m.roots ++ [])
  have preserves := canonical.preserves_intern clean text (m.roots ++ [])
  refine ⟨(m.intern text []).1, (m.intern text []).2.heap, ?_, made,
    fun k found => (canonical.intern clean text _).distinct _ _ _ found made,
    fun h reach => preserves h (reach.mono fun _ => List.mem_append_left _)⟩
  obtain ⟨string, s, t, found, found', rfl⟩ := joins_iff.1 joins
  rw [add_eq_join stack (not_numbers_of_joins joins), join_eq, if_pos string, found, found']
  -- Both operands are still on the stack when the string is made.
  have replaced := replaceTwo_eq (m := (m.intern (s ++ t) []).2) regular.stack two
    (.object (m.intern (s ++ t) []).1)
  exact left ▸ replaced

/-- Other values are refused, and the machine is as it was. -/
theorem add_of_not_joins (stack : m.stack = (below.push a).push b)
    (other : ¬∃ x y, a = .number x ∧ b = .number y) (refused : ∀ text, ¬m.heap.Joins a b text) :
    add none m = .error (.failed .operandsMustBeNumbersOrStrings) m := by
  rw [add_eq_join stack other, join_eq]
  split
  · split
    · exact absurd (joins_iff.2 ⟨‹_›, _, _, ‹_›, ‹_›, rfl⟩) (refused _)
    · rfl
  · rfl

/-- Two values are replaced by the outcome of their comparison. -/
theorem perform_equal_eq (stack : m.stack = (below.push a).push b)
    (limit : m.stack.size ≤ m.config.stackLimit) :
    perform .equal 0 0 none m = .ok ⟨⟩ { m with stack := below.push (.bool (a.equal b)) } := by
  let popped : Machine := { m with stack := m.stack.pop }
  have rest : popped.stack = below.push a := by simp [popped, stack]
  have right : pop none m = .ok b popped := pop_eq (by rw [stack, Array.back?_push])
  have left : pop none popped = .ok a { m with stack := below } :=
    (pop_eq (by rw [rest, Array.back?_push])).trans (by rw [rest, Array.pop_push])
  have room : ¬ m.config.stackLimit ≤ below.size := by
    rw [stack, Array.size_push, Array.size_push] at limit
    omega
  have pushed : push (.bool (a.equal b)) none { m with stack := below } = _ := push_eq ..
  rw [if_neg room] at pushed
  exact (bind_eq right _).trans ((bind_eq left _).trans pushed)

/-- Two strings of the same text are equal. -/
theorem perform_equal_of_text {h k : Handle} (regular : m.Regular)
    (stack : m.stack = (below.push (.object h)).push (.object k))
    (found : m.heap.text? h = some text) (found' : m.heap.text? k = some text) :
    perform .equal 0 0 none m = .ok ⟨⟩ { m with stack := below.push (.bool true) } := by
  have same : (Value.object h).equal (.object k) = true :=
    (regular.heap.canonical.equal_iff found found').2 rfl
  rw [perform_equal_eq stack regular.stack, same]

end Exec

/-! ## Rows of strings -/

/-- What has been written in two parts has been written in the first one. -/
theorem Chunk.exists_ok_of_bind {α β : Type} {x : Except ChunkError α} {f : α → Except ChunkError β}
    {made : β} (ran : x >>= f = .ok made) : ∃ result, x = .ok result ∧ f result = .ok made := by
  cases x with
  | ok result => exact ⟨result, rfl, ran⟩
  | error e => cases ran

/-- A row of strings, and the order in which they are joined. -/
inductive Bracketing
  | leaf (text : String)
  | join (left right : Bracketing)
  deriving DecidableEq, Repr

namespace Bracketing

/-- The strings of the row. -/
def leaves : Bracketing → List String
  | leaf text => [text]
  | join left right => left.leaves ++ right.leaves

/-- The text that the row is joined to. -/
def text : Bracketing → String
  | leaf text => text
  | join left right => left.text ++ right.text

/-- Append the code that joins a row of strings, which are found at their places in the heap. -/
def write (place : String → Handle) (line : Nat) (c : Chunk Value) :
    Bracketing → Except ChunkError (Chunk Value)
  | leaf text => (c.loadConstant (.object (place text)) line).map (·.2)
  | join left right => do
    let c ← write place line c left
    let c ← write place line c right
    return c.emit .add [] line

/-- The code that joins two rows of strings and compares what comes of them. -/
def compare (place : String → Handle) (line : Nat) (c : Chunk Value) (left right : Bracketing) :
    Except ChunkError (Chunk Value) := do
  let c ← left.write place line c
  let c ← right.write place line c
  return c.emit .equal [] line

/-- The values that the code of a row needs on the stack at once. -/
def stackNeed : Bracketing → Nat
  | leaf _ => 1
  | join left right => max left.stackNeed (right.stackNeed + 1)

/-- Brackets do not show in the text. -/
theorem text_eq (t : Bracketing) : t.text = String.join t.leaves := by
  induction t with
  | leaf text => simp [Bracketing.text, leaves]
  | join left right ihl ihr => rw [Bracketing.text, ihl, ihr, leaves, String.join_append]

variable {place : String → Handle} {line : Nat} {t left right : Bracketing} {c c' : Chunk Value}

/-- The code of a joined row is that of its two parts and an addition. -/
theorem exists_of_write_join (written : (join left right).write place line c = .ok c') :
    ∃ c₁ c₂, left.write place line c = .ok c₁ ∧ right.write place line c₁ = .ok c₂ ∧
      c₂.emit .add [] line = c' := by
  obtain ⟨c₁, first, written⟩ := Chunk.exists_ok_of_bind written
  obtain ⟨c₂, second, written⟩ := Chunk.exists_ok_of_bind written
  exact ⟨c₁, c₂, first, second, Except.ok.inj written⟩

/-- The code that compares two rows joins both of them. -/
theorem exists_of_compare (written : compare place line c left right = .ok c') :
    ∃ c₁ c₂, left.write place line c = .ok c₁ ∧ right.write place line c₁ = .ok c₂ ∧
      c₂.emit .equal [] line = c' := by
  obtain ⟨c₁, first, written⟩ := Chunk.exists_ok_of_bind written
  obtain ⟨c₂, second, written⟩ := Chunk.exists_ok_of_bind written
  exact ⟨c₁, c₂, first, second, Except.ok.inj written⟩

/-- The code of a single string is its load. -/
theorem of_write_leaf {s : String} (written : (leaf s).write place line c = .ok c') :
    c.constants.size < Chunk.indexLimit ∧ c.loading (.object (place s)) line = c' := by
  rw [write, Chunk.loadConstant_eq] at written
  by_cases room : c.constants.size < Chunk.indexLimit
  · rw [if_pos room] at written
    exact ⟨room, Except.ok.inj written⟩
  · rw [if_neg room] at written
    cases written

theorem begins_of_write (written : t.write place line c = .ok c') : c.Begins c' := by
  induction t generalizing c c' with
  | leaf s =>
    obtain ⟨-, rfl⟩ := of_write_leaf written
    exact c.begins_loading _ line
  | join left right ihl ihr =>
    obtain ⟨c₁, c₂, first, second, rfl⟩ := exists_of_write_join written
    exact (ihl first).trans ((ihr second).trans (Expression.begins_emit c₂ .add line))

/-- The strings of a row are constants of its code. -/
theorem exists_constant_of_write {s : String} (written : t.write place line c = .ok c')
    (mem : s ∈ t.leaves) : ∃ index, c'.constant? index = some (.object (place s)) := by
  induction t generalizing c c' with
  | leaf =>
    obtain ⟨-, rfl⟩ := of_write_leaf written
    obtain rfl := List.mem_singleton.1 mem
    exact ⟨_, c.constant?_loading _ line⟩
  | join left right ihl ihr =>
    obtain ⟨c₁, c₂, first, second, rfl⟩ := exists_of_write_join written
    have begins := Expression.begins_emit c₂ .add line
    rcases List.mem_append.1 mem with mem | mem
    · obtain ⟨index, held⟩ := ihl first mem
      exact ⟨index, ((begins_of_write second).trans begins).constant?_eq held⟩
    · obtain ⟨index, held⟩ := ihr second mem
      exact ⟨index, begins.constant?_eq held⟩

end Bracketing

/-! ## Joining rows of strings -/

namespace Machine

variable {m m₁ m' : Machine} {full c : Chunk Value} {ip ip' line : Nat}
  {stack stack' below : Array Value} {a b : Value} {text : String}

/-- The machine comes to an offset with another stack. What it kept alive is as it was. -/
structure Arrives (m : Machine) (ip : Nat) (stack : Array Value) (m' : Machine) : Prop where
  ran : ∃ n, m.steps n = (none, m')
  same : ∃ events, m' = { m.reached ip stack events with heap := m'.heap }
  preserves : m.heap.Preserves m.roots m'.heap

theorem roots_reached (m : Machine) (ip : Nat) (stack : Array Value)
    (events : List ExecutionEvent) : (m.reached ip stack events).roots = roots { m with stack } := by
  unfold roots reached withIp
  cases m.frames <;> rfl

/-- The function that the machine runs is kept alive. -/
theorem reach_function {f : Frame} {function : Function} (head : m.frames.head? = some f)
    (found : m.heap.function? f.function = some function) : m.heap.Reach m.roots f.function :=
  .root (mem_roots_function (List.mem_of_mem_head? head))
    (contains_of_get? (get?_of_function? found))

/-- The constants of the chunk are kept alive. -/
theorem Faces.reach_constant (faces : m.Faces full ip) {index : Nat} {h : Handle}
    (held : full.constant? index = some (.object h)) (live : m.heap.contains h) :
    m.heap.Reach m.roots h := by
  obtain ⟨f, function, head, found, rfl, -⟩ := faces
  refine .reference (reach_function head found) (get?_of_function? found) ?_ live
  rw [Chunk.constant?, ← Array.getElem?_toList] at held
  exact List.mem_append_right _ (List.mem_filterMap.2 ⟨_, List.mem_of_getElem? held, rfl⟩)

namespace Arrives

variable (arrives : m.Arrives ip stack m')
include arrives

theorem stack_eq : m'.stack = stack := by
  obtain ⟨events, same⟩ := arrives.same
  rw [same]
  rfl

theorem config_eq : m'.config = m.config := by
  obtain ⟨events, same⟩ := arrives.same
  rw [same]
  rfl

theorem occurs (occurs : m.Occurs) : m'.Occurs := by
  obtain ⟨n, ran⟩ := arrives.ran
  have there : (m.steps n).2.Occurs := occurs.steps (by rw [ran])
  rwa [ran] at there

/-- The machine runs the same chunk. -/
theorem faces (faces : m.Faces full ip') : m'.Faces full ip := by
  obtain ⟨f, function, head, found, same, -⟩ := faces
  have kept := arrives.preserves f.function (reach_function head found)
  obtain ⟨events, eq⟩ := arrives.same
  refine ⟨{ f with ip }, function, ?_, ?_, same, rfl⟩
  · rw [eq]
    exact Exec.head?_withIp head ip
  · rw [Heap.function?, kept]
    exact found

/-- If values were only pushed, all is kept alive that was before. -/
theorem roots_subset (pushed : stack = m.stack.push a) : m.roots ⊆ m'.roots := by
  obtain ⟨events, same⟩ := arrives.same
  have roots_eq : m'.roots = (m.reached ip stack events).roots := by
    rw [same]
    rfl
  rw [roots_eq, roots_reached, pushed]
  intro h mem
  simp only [roots, Array.toList_push, List.filterMap_append, List.mem_append] at mem ⊢
  grind

theorem trans (sub : m.roots ⊆ m'.roots) (arrives' : m'.Arrives ip' stack' m₁) :
    m.Arrives ip' stack' m₁ := by
  obtain ⟨n, ran⟩ := arrives.ran
  obtain ⟨n', ran'⟩ := arrives'.ran
  obtain ⟨events, same⟩ := arrives.same
  obtain ⟨events', same'⟩ := arrives'.same
  refine ⟨⟨n + n', by rw [steps_add ran, ran']⟩, ⟨events', ?_⟩,
    arrives.preserves.trans sub arrives'.preserves⟩
  rw [same', same]
  exact congrArg (fun m : Machine => { m with heap := m₁.heap })
    (m.reached_reached ip ip' stack stack' events events')

end Arrives

/-- The machine comes to an offset, with the string of a text on top of its stack. -/
def Gives (m : Machine) (ip : Nat) (text : String) : Prop :=
  ∃ m' r, m.Arrives ip (m.stack.push (.object r)) m' ∧ m'.heap.text? r = some text

/-- Loading a string gives its text. -/
theorem Faces.gives_loading (faces : m.Faces full c.size) {h : Handle}
    (found : m.heap.text? h = some text) (few : c.constants.size < Chunk.indexLimit)
    (begins : (c.loading (.object h) line).Begins full)
    (room : m.stack.size < m.config.stackLimit) :
    m.Gives (c.loading (.object h) line).size text := by
  obtain ⟨events, step⟩ := faces.step_loading few begins
  rw [if_neg (Nat.not_le.2 room)] at step
  exact ⟨_, h, ⟨⟨1, steps_one step⟩, ⟨events, rfl⟩, .refl _ _⟩, found⟩

/-- Joining two values gives the string of their texts. -/
theorem Occurs.arrives_add (occurs : m.Occurs) (faces : m.Faces full c.size)
    (begins : (c.emit .add [] line).Begins full) (stack : m.stack = (below.push a).push b)
    (joins : m.heap.Joins a b text) : ∃ m' r,
      m.Arrives (c.emit .add [] line).size (below.push (.object r)) m' ∧
        m'.heap.text? r = some text := by
  obtain ⟨events, step⟩ := faces.step_emit rfl begins
  let fetched := m.reached (c.size + 1) m.stack events
  have regular : fetched.Regular := { occurs.regular.withIp (c.size + 1) with }
  obtain ⟨r, heap, added, found, -, preserves⟩ :=
    Exec.add_of_joins (m := fetched) regular stack joins
  rw [Chunk.size_emit]
  refine ⟨_, r, ⟨⟨1, steps_one (step.trans added)⟩, ⟨events, rfl⟩, ?_⟩, found⟩
  rwa [roots_reached] at preserves

end Machine

namespace Bracketing

open Machine

variable {place : String → Handle} {line : Nat} {t left right : Bracketing}
  {c c₁ c₂ c' full : Chunk Value} {m : Machine}

/-- The strings of a row are still there when the machine comes to its code. -/
theorem strings_of_arrives {m₁ : Machine} {ip ip' : Nat} {stack : Array Value}
    (written : t.write place line c = .ok c') (begins : c'.Begins full)
    (faces : m.Faces full ip) (strings : ∀ s ∈ t.leaves, m.heap.text? (place s) = some s)
    (arrives : m.Arrives ip' stack m₁) : ∀ s ∈ t.leaves, m₁.heap.text? (place s) = some s := by
  intro s mem
  obtain ⟨index, held⟩ := exists_constant_of_write written mem
  have found := strings s mem
  have reach := faces.reach_constant (begins.constant?_eq held) (contains_of_text? found)
  rwa [Heap.text?, arrives.preserves _ reach, ← Heap.text?]

/-- The code of a row gives the string of its text, wherever it stands in the chunk. -/
def Works (place : String → Handle) (line : Nat) (full : Chunk Value) (t : Bracketing) : Prop :=
  ∀ c c' (m : Machine), t.write place line c = .ok c' → c'.Begins full → m.Occurs →
    m.Faces full c.size → (∀ s ∈ t.leaves, m.heap.text? (place s) = some s) →
    m.stack.size + t.stackNeed ≤ m.config.stackLimit → m.Gives c'.size t.text

/-- When the first row has been joined, the second one is, and both results lie on the stack. -/
theorem Works.two (works : left.Works place line full) (works' : right.Works place line full)
    (first : left.write place line c = .ok c₁) (second : right.write place line c₁ = .ok c₂)
    (begins : c₂.Begins full) (occurs : m.Occurs) (faces : m.Faces full c.size)
    (strings : ∀ s ∈ left.leaves ++ right.leaves, m.heap.text? (place s) = some s)
    (room : m.stack.size + max left.stackNeed (right.stackNeed + 1) ≤ m.config.stackLimit) :
    ∃ m₂ r r', m.Arrives c₂.size ((m.stack.push (.object r)).push (.object r')) m₂ ∧
      m.roots ⊆ m₂.roots ∧ m₂.heap.text? r = some left.text ∧
        m₂.heap.text? r' = some right.text := by
  obtain ⟨m₁, r, arrives, found⟩ := works c c₁ m first ((begins_of_write second).trans begins)
    occurs faces (fun s mem => strings s (List.mem_append_left _ mem)) (by omega)
  have strings' := strings_of_arrives second begins faces
    (fun s mem => strings s (List.mem_append_right _ mem)) arrives
  have room' : m₁.stack.size + right.stackNeed ≤ m₁.config.stackLimit := by
    rw [arrives.stack_eq, arrives.config_eq, Array.size_push]
    omega
  obtain ⟨m₂, r', arrives', found'⟩ := works' c₁ c₂ m₁ second begins (arrives.occurs occurs)
    (arrives.faces faces) strings' room'
  have sub := arrives.roots_subset rfl
  have sub' := arrives'.roots_subset rfl
  rw [arrives.stack_eq] at arrives'
  -- The first result is kept alive by the stack while the second row is joined.
  have below : r ∈ m₁.roots := mem_roots_stack (v := .object r)
    (arrives.stack_eq ▸ Array.mem_push_self) rfl
  exact ⟨m₂, r, r', arrives.trans sub arrives', List.Subset.trans sub sub',
    arrives'.preserves.text? below found, found'⟩

theorem works (place : String → Handle) (line : Nat) (full : Chunk Value) (t : Bracketing) :
    t.Works place line full := by
  -- The machine varies along the induction: each part finds the heap that the part before it left.
  induction t with
  | leaf s =>
    intro c c' m written begins occurs faces strings room
    obtain ⟨few, rfl⟩ := of_write_leaf written
    exact faces.gives_loading (strings s List.mem_cons_self) few begins room
  | join left right ihl ihr =>
    intro c c' m written begins occurs faces strings room
    obtain ⟨c₁, c₂, first, second, rfl⟩ := exists_of_write_join written
    obtain ⟨m₂, r, r', arrives, sub, found, found'⟩ := ihl.two ihr first second
      ((Expression.begins_emit c₂ .add line).trans begins) occurs faces strings room
    -- The operands may be freed from now on, but no value below them.
    obtain ⟨m', joined, arrives', text⟩ := (arrives.occurs occurs).arrives_add
      (arrives.faces faces) begins arrives.stack_eq (.strings found found')
    exact ⟨m', joined, arrives.trans sub arrives', text⟩

end Bracketing

/-! ## Any brackets -/

namespace Machine

variable {m : Machine}

/-- A step that adds two values that are not both numbers joins them, or refuses them. -/
theorem Occurs.step_add {i : Instruction} {below : Array Value} {a b : Value} (occurs : m.Occurs)
    (next : m.next? = some i) (add : i.opcode = .add) (stack : m.stack = (below.push a).push b)
    (other : ¬∃ x y, a = .number x ∧ b = .number y) :
    (∀ text, m.heap.Joins a b text → ∃ events heap r,
      Exec.step none m = .ok ⟨⟩ { m.fetched events with heap, stack := below.push (.object r) } ∧
        heap.text? r = some text ∧ (∀ k, heap.text? k = some text → k = r) ∧
        m.heap.Preserves m.roots heap) ∧
    ((∀ text, ¬m.heap.Joins a b text) → ∃ events,
      Exec.step none m = .error (.failed .operandsMustBeNumbersOrStrings) (m.fetched events)) := by
  obtain ⟨events, step⟩ := Exec.step_eq_nextIp none next
  rw [add] at step
  constructor
  · intro text joins
    obtain ⟨r, heap, added, made, only, preserves⟩ :=
      Exec.add_of_joins (occurs.regular.fetched events) stack joins
    change Heap.Preserves _ (m.reached m.nextIp m.stack events).roots _ at preserves
    rw [roots_reached] at preserves
    exact ⟨events, heap, r, step.trans added, made, only, preserves⟩
  · intro refused
    exact ⟨events, step.trans (Exec.add_of_not_joins (m := m.fetched events) stack other refused)⟩

/-- A step that compares two strings of the same text finds them equal. -/
theorem Occurs.step_equal {i : Instruction} {below : Array Value} {h k : Handle} {text : String}
    (occurs : m.Occurs) (next : m.next? = some i) (equal : i.opcode = .equal)
    (stack : m.stack = (below.push (.object h)).push (.object k))
    (found : m.heap.text? h = some text) (found' : m.heap.text? k = some text) : ∃ events,
      Exec.step none m = .ok ⟨⟩ { m.fetched events with stack := below.push (.bool true) } := by
  obtain ⟨events, step⟩ := Exec.step_eq_nextIp none next
  rw [equal] at step
  have compared := Exec.perform_equal_of_text (occurs.regular.fetched events) stack found found'
  exact ⟨events, step.trans compared⟩

/-- Two rows of the same strings are joined to equal values. -/
theorem Occurs.compares {left right : Bracketing} {place : String → Handle} {line : Nat}
    {c c' full : Chunk Value} (occurs : m.Occurs) (same : left.leaves = right.leaves)
    (written : Bracketing.compare place line c left right = .ok c') (begins : c'.Begins full)
    (faces : m.Faces full c.size) (strings : ∀ s ∈ left.leaves, m.heap.text? (place s) = some s)
    (room : m.stack.size + max left.stackNeed (right.stackNeed + 1) ≤ m.config.stackLimit) :
    ∃ m', m.Arrives c'.size (m.stack.push (.bool true)) m' := by
  obtain ⟨c₁, c₂, first, second, rfl⟩ := Bracketing.exists_of_compare written
  have strings' : ∀ s ∈ left.leaves ++ right.leaves, m.heap.text? (place s) = some s := by
    rwa [← same, List.forall_mem_append, and_self]
  obtain ⟨m₂, r, r', arrives, sub, found, found'⟩ :=
    (left.works place line full).two (right.works place line full) first second
      ((Expression.begins_emit c₂ .equal line).trans begins) occurs faces strings' room
  rw [right.text_eq, ← same, ← left.text_eq] at found'
  obtain ⟨events, step⟩ := (arrives.faces faces).step_emit rfl begins
  let fetched := m₂.reached (c₂.size + 1) m₂.stack events
  have regular : fetched.Regular := { (arrives.occurs occurs).regular.withIp (c₂.size + 1) with }
  have compared := Exec.perform_equal_of_text regular arrives.stack_eq found found'
  refine ⟨_, arrives.trans sub ⟨⟨1, steps_one (step.trans compared)⟩, ⟨events, ?_⟩, .refl _ _⟩⟩
  rw [Chunk.size_emit]
  rfl

/-- Adding two values that are not both numbers succeeds if both are strings or numbers, and one of
them is a string. Both are then replaced by the string of their texts one after the other, and what
the machine kept alive is as it was. Otherwise the addition fails, and nothing is allocated. So any
two ways to bracket a row of strings give results that are equal to scripts. -/
theorem Occurs.strings_joined (occurs : m.Occurs) :
    (∀ i (below : Array Value) a b, m.next? = some i → i.opcode = .add →
      m.stack = (below.push a).push b → (¬∃ x y, a = .number x ∧ b = .number y) →
      ((∃ m', Exec.step none m = .ok ⟨⟩ m') ↔ ∃ text, m.heap.Joins a b text) ∧
      (∀ text, m.heap.Joins a b text → ∃ events heap r,
        Exec.step none m = .ok ⟨⟩ { m.fetched events with heap, stack := below.push (.object r) } ∧
          heap.text? r = some text ∧ (∀ k, heap.text? k = some text → k = r) ∧
          m.heap.Preserves m.roots heap) ∧
      ((∀ text, ¬m.heap.Joins a b text) → ∃ events,
        Exec.step none m = .error (.failed .operandsMustBeNumbersOrStrings) (m.fetched events))) ∧
    (∀ i (below : Array Value) h k text, m.next? = some i → i.opcode = .equal →
      m.stack = (below.push (.object h)).push (.object k) → m.heap.text? h = some text →
      m.heap.text? k = some text → ∃ events,
        Exec.step none m = .ok ⟨⟩ { m.fetched events with stack := below.push (.bool true) }) ∧
    ∀ (left right : Bracketing) place line c c' full, left.leaves = right.leaves →
      Bracketing.compare place line c left right = .ok c' → c'.Begins full →
      m.Faces full c.size → (∀ s ∈ left.leaves, m.heap.text? (place s) = some s) →
      m.stack.size + max left.stackNeed (right.stackNeed + 1) ≤ m.config.stackLimit →
      ∃ m', m.Arrives c'.size (m.stack.push (.bool true)) m' := by
  refine ⟨fun i below a b next add stack other => ?_,
    fun i below h k text next equal stack found found' =>
      occurs.step_equal next equal stack found found',
    fun left right place line c c' full same written begins faces strings room =>
      occurs.compares same written begins faces strings room⟩
  obtain ⟨joined, refused⟩ := occurs.step_add next add stack other
  refine ⟨⟨fun ⟨m', ran⟩ => ?_, fun ⟨text, joins⟩ => ?_⟩, joined, refused⟩
  · by_contra never
    obtain ⟨events, failed⟩ := refused (not_exists.1 never)
    cases ran.symm.trans failed
  · obtain ⟨events, heap, r, ran, -⟩ := joined text joins
    exact ⟨_, ran⟩

/-- Where the strings of two rows are. -/
def placed (s : String) : Handle := if s = "a" then ⟨3⟩ else if s = "" then ⟨4⟩ else ⟨5⟩

/-- A row of three strings whose first two are joined first. -/
def forward : Bracketing := .join (.join (.leaf "a") (.leaf "")) (.leaf "b")

/-- The same row, with its last two strings joined first. -/
def backward : Bracketing := .join (.leaf "a") (.join (.leaf "") (.leaf "b"))

/-- The code that compares the two rows. -/
def comparison : Chunk Value :=
  (Bracketing.compare placed 1 .empty forward backward).toOption.getD default

/-- A script that compares the two rows, and then goes on to add the outcome and a string. -/
def comparing : Chunk Value := (comparison.loading (.object ⟨3⟩) 2).emit .add [] 2

/-- A machine in this script that collects before every allocation. -/
def joining : Machine :=
  let m := start { diagnostics := { stressCollections := true } } default .zero
  let m := (m.intern "a" []).2
  let m := (m.intern "" [⟨3⟩]).2
  let m := (m.intern "b" [⟨3⟩, ⟨4⟩]).2
  let m := (m.allocate (.function (.script comparing)) [⟨5⟩]).2
  m.left (enter ⟨6⟩) none

theorem joining_occurs : joining.Occurs := by
  refine .left_enter ?_ (by decide +kernel)
  exact ((((Occurs.start _ _ _).host (.intern "a" [])).host (.intern "" [⟨3⟩])).host
    (.intern "b" [⟨3⟩, ⟨4⟩])).host (.function _ [⟨5⟩])

theorem joining_faces : joining.Faces comparing 0 := by
  have chunk : (joining.heap.function? ⟨6⟩).map (fun f =>
      (f.chunk.code, f.chunk.lines, f.chunk.constants)) =
        some (comparing.code, comparing.lines, comparing.constants) := by decide +kernel
  have head : joining.frames.head? = some ⟨⟨7⟩, ⟨6⟩, 0, 0⟩ := by decide +kernel
  obtain ⟨f, found, same⟩ := Option.map_eq_some_iff.1 chunk
  exact ⟨_, f, head, found, congrArg (fun p => Chunk.mk p.1 p.2.1 p.2.2) same, rfl⟩

/-- Joining the first string and the empty one gives the first one itself. The rows are equal, and
the outcome, a truth value, is joined to nothing. -/
theorem strings_joined_joining :
    (∃ events heap, Exec.step none (joining.steps 2).2 = .ok ⟨⟩ { (joining.steps 2).2.fetched events
      with heap, stack := #[.object ⟨7⟩, .object ⟨3⟩] }) ∧
    (∃ m', joining.Arrives comparison.size #[.object ⟨7⟩, .bool true] m') ∧
    ∃ events, Exec.step none (joining.steps 12).2 =
      .error (.failed .operandsMustBeNumbersOrStrings) ((joining.steps 12).2.fetched events) := by
  have occurs := joining_occurs
  have itself {m : Machine} (occurs : m.Occurs) (next : m.next? = some ⟨.add, []⟩)
      (stack : m.stack = (#[Value.object ⟨7⟩].push (.object ⟨3⟩)).push (.object ⟨4⟩))
      (first : m.heap.text? ⟨3⟩ = some "a") (second : m.heap.text? ⟨4⟩ = some "") :
      ∃ events heap, Exec.step none m = .ok ⟨⟩ { m.fetched events with
        heap, stack := #[.object ⟨7⟩, .object ⟨3⟩] } := by
    obtain ⟨-, joined, -⟩ := occurs.strings_joined.1 _ _ _ _ next rfl stack nofun
    obtain ⟨events, heap, r, ran, -, only, preserves⟩ := joined _ (.strings first second)
    have root : ⟨3⟩ ∈ m.roots := mem_roots_stack (v := .object ⟨3⟩) (by simp [stack]) rfl
    obtain rfl := only ⟨3⟩ (preserves.text? root first)
    exact ⟨events, heap, ran⟩
  have neither {m : Machine} (occurs : m.Occurs) (next : m.next? = some ⟨.add, []⟩)
      (stack : m.stack = (#[Value.object ⟨7⟩].push (.bool true)).push (.object ⟨3⟩)) :
      ∃ events, Exec.step none m =
        .error (.failed .operandsMustBeNumbersOrStrings) (m.fetched events) := by
    obtain ⟨-, -, refused⟩ := occurs.strings_joined.1 _ _ _ _ next rfl stack nofun
    exact refused nofun
  refine ⟨itself (occurs.steps ?_) ?_ ?_ ?_ ?_, ?_, neither (occurs.steps ?_) ?_ ?_⟩
  case refine_6 =>
    have written : Bracketing.compare placed 1 .empty forward backward = .ok comparison := rfl
    have begins : comparison.Begins comparing :=
      (comparison.begins_loading _ 2).trans (Expression.begins_emit _ .add 2)
    have strings : ∀ s ∈ forward.leaves, joining.heap.text? (placed s) = some s := by
      decide +kernel
    have stack : joining.stack = #[.object ⟨7⟩] := by decide +kernel
    obtain ⟨m', arrives⟩ := occurs.strings_joined.2.2 forward backward placed 1 .empty comparison
      comparing (by decide +kernel) written begins joining_faces strings (by decide +kernel)
    rw [stack] at arrives
    exact ⟨m', arrives⟩
  all_goals decide +kernel

end Machine

end ScriptMachine
