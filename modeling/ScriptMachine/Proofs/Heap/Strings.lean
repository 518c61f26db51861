/-
# One string for each text

Strings come into a heap by interning alone, and nothing overwrites a string in
place. Whatever else happens to the heap, the live strings are then exactly the
strings that its table lists, and each of them has a text of its own. So
strings are compared by their handles: equal handles mean equal texts.

A text that was looked for in vain may be looked for again with the same
outcome, since what an allocation collects is never the string that it is
about to put into the heap. If the old string of a text has been freed, the
text gets a new one, under a handle that was never given out.

## Main definitions

* `Heap.Evolves` — the heaps that arise if no string is overwritten

## Main results

* `Evolves.canonical` — their tables list the live strings
* `Evolves.strings_canonical` — what follows for texts
-/

import ScriptMachine.Proofs.Heap.Interning

namespace ScriptMachine

namespace Heap

variable {heap : Heap} {h k : Handle} {text : String} {config : Config}

/-- The heaps that the operations of a heap lead to if strings come in by interning only and an
object that is changed neither was a string nor becomes one. -/
inductive Evolves (config : Config) : Heap → Prop
  | empty : Evolves config (empty config)
  | allocate {heap : Heap} (evolves : Evolves config heap) (object : Object) (roots : List Handle)
    (other : object.kind ≠ .string) : Evolves config (heap.allocate object roots).2
  | intern {heap : Heap} (evolves : Evolves config heap) (text : String) (roots : List Handle) :
    Evolves config (heap.intern text roots).2
  | modify {heap : Heap} (evolves : Evolves config heap) (h : Handle) (f : Object → Object)
    (other : ∀ object, heap.get? h = some object →
      f object = object ∨ object.kind ≠ .string ∧ (f object).kind ≠ .string) :
    Evolves config (heap.modify h f)
  | recharge {heap : Heap} (evolves : Evolves config heap) (h : Handle) :
    Evolves config (heap.recharge h)
  | collect {heap : Heap} (evolves : Evolves config heap) (roots : List Handle) :
    Evolves config (heap.collect roots)

theorem Evolves.arises (evolves : heap.Evolves config) : heap.Arises config := by
  induction evolves with
  | empty => exact .empty
  | allocate _ object roots _ ih => exact ih.allocate object roots
  | intern _ text roots ih => exact ih.intern text roots
  | modify _ h f _ ih => exact ih.modify h f
  | recharge _ h ih => exact ih.recharge h
  | collect _ roots ih => exact ih.collect roots

/-- Changing nothing, or an object that neither was a string nor becomes one. -/
theorem Canonical.modify_of_other {f : Object → Object} (canonical : heap.Canonical)
    (other : ∀ object, heap.get? h = some object →
      f object = object ∨ object.kind ≠ .string ∧ (f object).kind ≠ .string) :
    (heap.modify h f).Canonical := by
  -- Where the object stays as it was, every handle keeps its object.
  have unchanged (same : ∀ k, (heap.modify h f).get? k = heap.get? k) :
      (heap.modify h f).Canonical := by
    refine canonical.congr rfl fun k => ?_
    rw [text?, same, ← text?]
  cases found : heap.get? h with
  | none =>
    refine unchanged fun k => ?_
    rw [get?_modify]
    split
    next eq => rw [eq, found, Option.map_none]
    next => rfl
  | some object =>
    rcases other object found with same | ⟨before, after⟩
    · refine unchanged fun k => ?_
      rw [get?_modify]
      split
      next eq => rw [eq, found, Option.map_some, same]
      next => rfl
    · exact canonical.modify found before after

theorem Evolves.canonical (evolves : heap.Evolves config) : heap.Canonical := by
  induction evolves with
  | empty => exact canonical_empty config
  | allocate before object roots other ih => exact ih.allocate before.arises.clean other roots
  | intern before text roots ih => exact ih.intern before.arises.clean text roots
  | modify _ _ _ other ih => exact ih.modify_of_other other
  | recharge _ h ih => exact ih.recharge h
  | collect before roots ih => exact ih.collect before.arises.clean roots

namespace Canonical

/-! ## The strings of the table -/

/-- A key is listed if it is that of a live string, with the hash of its text. -/
theorem mem_keys_iff (canonical : heap.Canonical) {key : Key} :
    key ∈ heap.interned.entries.map (·.1) ↔
      ∃ text, heap.text? key.handle = some text ∧ key.hash = Hash.ofText text := by
  have live : heap.key? key.handle = some key ↔
      ∃ text, heap.text? key.handle = some text ∧ key.hash = Hash.ofText text := by
    rw [key?_eq_some_iff, and_iff_right rfl]
  rw [← live, List.mem_map]
  constructor
  · rintro ⟨⟨_, v⟩, mem, rfl⟩
    exact canonical.listed _ v mem
  · intro found
    obtain ⟨v, mem⟩ := canonical.complete _ key found
    exact ⟨(key, v), mem, rfl⟩

/-- The table counts the live strings. -/
theorem size_interned (canonical : heap.Canonical) :
    heap.interned.size = {h | ∃ text, heap.text? h = some text}.ncard := by
  have listed (h : Handle) : (∃ text, heap.text? h = some text) ↔
      ∃ e ∈ heap.interned.entries, e.1.handle = h := by
    constructor
    · rintro ⟨text, found⟩
      obtain ⟨v, mem⟩ := canonical.complete h ⟨h, Hash.ofText text⟩
        (key?_eq_some_iff.mpr ⟨rfl, text, found, rfl⟩)
      exact ⟨_, mem, rfl⟩
    · rintro ⟨⟨key, v⟩, mem, rfl⟩
      obtain ⟨-, text, found, -⟩ := key?_eq_some_iff.mp (canonical.listed key v mem)
      exact ⟨text, found⟩
  have counted := canonical.lawful.ncard_handles fun _ => true
  simp only [and_true, List.countP_true] at counted
  simp only [listed, counted, canonical.lawful.size_eq]

/-- Strings are equal to scripts if their texts are equal. -/
theorem equal_iff (canonical : heap.Canonical) {s t : String} (found : heap.text? h = some s)
    (found' : heap.text? k = some t) : (Value.object h).equal (.object k) ↔ s = t := by
  rw [Value.equal, beq_iff_eq]
  constructor
  · rintro rfl
    exact Option.some.inj (found.symm.trans found')
  · rintro rfl
    exact canonical.distinct h k s found found'

/-- Interning gives the live string with the text and changes nothing, or there is none and it makes
one under a handle that was never given out. -/
theorem intern_eq_or (canonical : heap.Canonical) (clean : heap.Clean) (text : String)
    (roots : List Handle) :
    (heap.text? (heap.intern text roots).1 = some text ∧ (heap.intern text roots).2 = heap) ∨
      (∀ k, heap.text? k ≠ some text) ∧ (heap.intern text roots).1 = ⟨heap.cells.size⟩ := by
  rcases interned_intern canonical clean text roots with same | ⟨none, allocated⟩
  · exact .inl same
  · exact .inr ⟨none, allocated.fresh⟩

end Canonical

/-! ## Texts -/

/-- If no string is overwritten, the live strings are the keys of the table, each once and under the
hash of its text, and their texts differ; no search for a text goes on for ever. So a text is
looked up by its live string; interning gives this string, or else a new one, whether or not it
collects; the table counts the strings; and strings are equal exactly if their texts are. -/
theorem Evolves.strings_canonical (evolves : heap.Evolves config) :
    (heap.interned.entries.map (·.1.handle)).Nodup ∧
    (∀ key, key ∈ heap.interned.entries.map (·.1) ↔
      ∃ text, heap.text? key.handle = some text ∧ key.hash = Hash.ofText text) ∧
    (∀ h k text, heap.text? h = some text → heap.text? k = some text → h = k) ∧
    (∀ text, heap.interned.TextSearchable text (Hash.ofText text) heap.text?) ∧
    (∀ text h, heap.lookup? text = some h ↔ heap.text? h = some text) ∧
    (∀ text roots, (heap.intern text roots).2.text? (heap.intern text roots).1 = some text ∧
      ((heap.text? (heap.intern text roots).1 = some text ∧ (heap.intern text roots).2 = heap) ∨
        (∀ k, heap.text? k ≠ some text) ∧ (heap.intern text roots).1 = ⟨heap.cells.size⟩)) ∧
    heap.interned.size = {h | ∃ text, heap.text? h = some text}.ncard ∧
    ∀ h k s t, heap.text? h = some s → heap.text? k = some t →
      ((Value.object h).equal (.object k) ↔ s = t) := by
  have canonical := evolves.canonical
  have clean := evolves.arises.clean
  exact ⟨canonical.lawful.nodup_handles, fun _ => canonical.mem_keys_iff, canonical.distinct,
    fun text => canonical.lawful.textSearchable text _ _,
    fun _ _ => canonical.lookup?_eq_some_iff,
    fun text roots => ⟨text?_intern canonical clean text roots,
      canonical.intern_eq_or clean text roots⟩,
    canonical.size_interned, fun _ _ _ _ => canonical.equal_iff⟩

/-- A heap that collects before every allocation. The first string is freed when the second one
comes in, and its text gets a new string afterwards. -/
def recycled : Heap :=
  let heap := empty { diagnostics := { stressCollections := true } }
  let (_, heap) := heap.intern "a" []
  let (b, heap) := heap.intern "b" []
  (heap.intern "a" [b]).2

theorem strings_canonical_recycled :
    recycled.Evolves { diagnostics := { stressCollections := true } } ∧
    ¬ recycled.contains ⟨0⟩ ∧ recycled.lookup? "a" = some ⟨2⟩ ∧
    ((Value.object ⟨1⟩).equal (.object ⟨2⟩) ↔ "b" = "a") ∧
    (recycled.intern "a" []).2.text? (recycled.intern "a" []).1 = some "a" := by
  have evolves : recycled.Evolves { diagnostics := { stressCollections := true } } :=
    ((Evolves.empty.intern _ _).intern _ _).intern _ _
  have freed : ¬ recycled.contains ⟨0⟩ := by decide +kernel
  have older : recycled.text? ⟨1⟩ = some "b" := by decide +kernel
  have newer : recycled.text? ⟨2⟩ = some "a" := by decide +kernel
  obtain ⟨-, -, -, -, looked, interned, -, equal⟩ := evolves.strings_canonical
  exact ⟨evolves, freed, (looked _ _).mpr newer, equal _ _ _ _ older newer, (interned "a" []).1⟩

end Heap

end ScriptMachine
