/-
# Tables by names

The keys of a table are handles of strings, but programs speak of names. What a
table has under a name it has under the one live string with this text, if there
is one. In these terms an insertion sets one name, copying a table lets its names
win, and what happens to the heap does not matter as long as the strings that are
keys keep their texts.

## Main definitions

* `Heap.named?` — what a table has under a name

## Main results

* `Sound.named?_insert`, `Sound.named?_addAll` — operations on tables by names
* `Sound.named?_congr`, `named?_of_keeps` — changes that do not matter to names
-/

import ScriptMachine.Proofs.Heap.Soundness

namespace ScriptMachine

/-- The value that a table has under the live string with this text. -/
def Heap.named? (heap : Heap) (t : Table) (name : String) : Option Value := do
  let key ← heap.key? (← heap.lookup? name)
  t.get? key

open Heap

variable {c : Custody} {heap after : Heap} {h : Handle} {t t' source : Table} {key : Key}
  {v : Value} {name : String}

namespace Heap

@[simp] theorem named?_empty (heap : Heap) (name : String) : heap.named? .empty name = none := by
  simp [named?]

/-- Whoever has a string with this text finds the same value. -/
theorem Canonical.named?_eq (canonical : heap.Canonical) (live : heap.key? key.handle = some key)
    (text : heap.text? key.handle = some name) (t : Table) : heap.named? t name = t.get? key := by
  have listed := canonical.lookup?_eq_some_iff.mpr text
  simp only [named?, listed, live, Option.bind_eq_bind, Option.bind_some]

/-- A name that no live string spells is in no table. -/
theorem named?_of_lookup?_eq_none (unknown : heap.lookup? name = none) (t : Table) :
    heap.named? t name = none := by
  rw [named?, unknown]
  rfl

/-- A name is spelled by a live string, or by none. -/
theorem Canonical.spelled_or_unknown (canonical : heap.Canonical) (name : String) :
    (∃ key, heap.key? key.handle = some key ∧ heap.text? key.handle = some name) ∨
      heap.lookup? name = none := by
  cases listed : heap.lookup? name with
  | none => exact .inr rfl
  | some h =>
    have text := canonical.lookup?_eq_some_iff.mp listed
    exact .inl ⟨⟨h, Hash.ofText name⟩, key?_of_text? text, text⟩

/-- What has been changed is no string and not the list of strings. -/
theorem named?_of_keeps (interned : after.interned = heap.interned)
    (keeps : ∀ k, heap.Keeps after k) (t : Table) (name : String) :
    after.named? t name = heap.named? t name := by
  have texts : after.text? = heap.text? := funext fun k => (keeps k).text
  have keys : after.key? = heap.key? := funext fun k => (keeps k).key?
  rw [named?, named?, lookup?, lookup?, interned, texts, keys]

end Heap

namespace Table

/-- The names in a table are live strings. -/
theorem Sound.named?_eq_some_iff (sound : t.Sound c heap) (canonical : heap.Canonical) :
    heap.named? t name = some v ↔
      ∃ key, heap.text? key.handle = some name ∧ (key, v) ∈ t.entries := by
  constructor
  · intro named
    rcases canonical.spelled_or_unknown name with ⟨key, live, text⟩ | unknown
    · rw [canonical.named?_eq live text] at named
      exact ⟨key, text, (sound.lawful.get?_eq_some_iff (sound.agrees live)).mp named⟩
    · rw [named?_of_lookup?_eq_none unknown] at named
      cases named
  · rintro ⟨key, text, mem⟩
    have live := sound.keys key v mem
    rw [canonical.named?_eq live text]
    exact (sound.lawful.get?_eq_some_iff (sound.agrees live)).mpr mem

/-- Two tables with the same entries, in two heaps, have the same names if the keys have the same
texts there. The keys are still there, as the table holds on to them. -/
theorem Sound.named?_congr (sound : t.Sound c heap) (sound' : t'.Sound c after)
    (canonical : heap.Canonical) (canonical' : after.Canonical) (same : t'.SameEntries t)
    (texts : ∀ key v, (key, v) ∈ t.entries → after.contains key.handle →
      after.text? key.handle = heap.text? key.handle) (name : String) :
    after.named? t' name = heap.named? t name := by
  refine Option.ext fun v => ?_
  rw [sound.named?_eq_some_iff canonical, sound'.named?_eq_some_iff canonical']
  refine exists_congr fun key => ?_
  rw [same key v, and_congr_left_iff]
  intro mem
  have named := sound'.keys key v ((same key v).mpr mem)
  rw [texts key v mem (contains_of_kind? (kind?_of_key? named))]

/-- Whatever is promised about values, anything goes. -/
theorem Sound.any (sound : t.Sound c heap) : t.Sound .any heap :=
  ⟨sound.lawful, sound.keys, fun _ _ _ _ _ => trivial⟩

theorem Sound.get?_insert {k : Key} (sound : t.Sound c heap)
    (live : heap.key? key.handle = some key) (live' : heap.key? k.handle = some k) (v : Value) :
    (t.insert key v).2.get? k = if k = key then some v else t.get? k := by
  have inserted := sound.any.insert (v := v) live fun _ _ => trivial
  refine Option.ext fun w => ?_
  rw [inserted.lawful.get?_eq_some_iff (inserted.agrees live'),
    sound.lawful.mem_entries_insert_iff (sound.agrees live)]
  split
  next same => simp [same, eq_comm]
  next other =>
    have handles : k.handle ≠ key.handle := fun same => by
      rw [same, live] at live'
      exact other (Option.some.inj live').symm
    simp [other, handles, sound.lawful.get?_eq_some_iff (sound.agrees live')]

/-- Inserting sets one name. -/
theorem Sound.named?_insert (sound : t.Sound c heap) (canonical : heap.Canonical)
    (live : heap.key? key.handle = some key) (text : heap.text? key.handle = some name)
    (v : Value) :
    heap.named? (t.insert key v).2 = Function.update (heap.named? t) name (some v) := by
  funext s
  rcases canonical.spelled_or_unknown s with ⟨k, live', text'⟩ | unknown
  · rw [canonical.named?_eq live' text', sound.get?_insert live live']
    by_cases same : s = name
    · subst same
      have handles := canonical.distinct _ _ _ text text'
      have : k = key := by
        rw [handles, live'] at live
        exact Option.some.inj live
      rw [if_pos this, Function.update_self]
    · have : k ≠ key := fun eq => same (Option.some.inj (text'.symm.trans (eq ▸ text)))
      rw [if_neg this, Function.update_of_ne same, canonical.named?_eq live' text']
  · have : s ≠ name := by
      rintro rfl
      rw [canonical.lookup?_eq_some_iff.mpr text] at unknown
      cases unknown
    rw [named?_of_lookup?_eq_none unknown, Function.update_of_ne this,
      named?_of_lookup?_eq_none unknown]

/-- The names of a table that is copied win. -/
theorem Sound.named?_addAll (sound : t.Sound c heap) (sound' : source.Sound c heap)
    (canonical : heap.Canonical) (name : String) :
    heap.named? (t.addAll source) name = (heap.named? source name).or (heap.named? t name) := by
  rcases canonical.spelled_or_unknown name with ⟨key, live, text⟩ | unknown
  · simp only [canonical.named?_eq live text]
    have mem := (sound.lawful.addAll sound'.lawful fun e mem =>
      sound.agrees (sound'.keys e.1 e.2 mem)).2
    have added := sound.addAll sound'
    refine Option.ext fun w => ?_
    rw [added.lawful.get?_eq_some_iff (added.agrees live), mem]
    simp only [← sound.lawful.get?_eq_some_iff (sound.agrees live),
      ← sound'.lawful.get?_eq_some_iff (sound'.agrees live)]
    cases source.get? key <;> simp [eq_comm]
  · simp only [named?_of_lookup?_eq_none unknown]
    rfl

end Table

end ScriptMachine
