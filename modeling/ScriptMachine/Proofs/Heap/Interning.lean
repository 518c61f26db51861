/-
# Interning

Every live string is listed in the table of interned strings under its own
hash, nothing else is listed there, and no two live strings have the same text.
So a text is looked up by its live string, and interning gives this string or
makes it.

The table keeps no string alive. A collection erases the strings that it is
about to free, and the string that is interned may be looked for before the
collection and listed after it: it is missing in both.

## Main definitions

* `Heap.Canonical` — the table lists the live strings, one for each text

## Main results

* `Canonical.lookup?_eq_some_iff` — looking up a text
* `Canonical.collect`, `Canonical.allocate`, `Canonical.modify` — what keeps the table in order
* `Canonical.intern`, `interned_intern` — interning a text
-/

import ScriptMachine.Proofs.Heap.Collection
import ScriptMachine.Proofs.Table.Lawful

namespace ScriptMachine

namespace Heap

variable {heap : Heap} {roots : List Handle} {h k : Handle} {text : String} {key : Key}

/-! ## Texts and keys -/

theorem text?_eq_some_iff :
    heap.text? h = some text ↔ ∃ s, heap.get? h = some (.string s) ∧ s.text = text := by
  unfold text?
  split
  next s found => simp [found]
  next other =>
    simp only [reduceCtorEq, false_iff]
    rintro ⟨s, found, -⟩
    exact other s found

theorem contains_of_text? (found : heap.text? h = some text) : heap.contains h := by
  obtain ⟨s, found, -⟩ := text?_eq_some_iff.mp found
  exact contains_of_get? found

/-- The key of a live string carries the hash of its text. -/
theorem key?_eq (heap : Heap) (h : Handle) :
    heap.key? h = (heap.text? h).map fun text => ⟨h, Hash.ofText text⟩ := by
  unfold key? text?
  split
  next s _ => simp [s.hash_eq]
  next => rfl

theorem key?_eq_some_iff :
    heap.key? h = some key ↔
      key.handle = h ∧ ∃ text, heap.text? h = some text ∧ key.hash = Hash.ofText text := by
  rw [key?_eq, Option.map_eq_some_iff]
  constructor
  · rintro ⟨text, found, rfl⟩
    exact ⟨rfl, text, found, rfl⟩
  · rintro ⟨rfl, text, found, same⟩
    exact ⟨text, found, by rw [← same]⟩

theorem key?_of_text? (found : heap.text? h = some text) :
    heap.key? h = some ⟨h, Hash.ofText text⟩ := key?_eq_some_iff.mpr ⟨rfl, text, found, rfl⟩

theorem handle_of_key? (found : heap.key? h = some key) : key.handle = h :=
  (key?_eq_some_iff.mp found).1

/-- The table of interned strings lists the live strings, and there is one for each text. -/
structure Canonical (heap : Heap) : Prop where
  lawful : heap.interned.Lawful
  listed : ∀ key v, (key, v) ∈ heap.interned.entries → heap.key? key.handle = some key
  complete : ∀ h key, heap.key? h = some key → ∃ v, (key, v) ∈ heap.interned.entries
  distinct : ∀ h k text, heap.text? h = some text → heap.text? k = some text → h = k

theorem canonical_empty (config : Config) : (empty config).Canonical where
  lawful := Table.lawful_empty
  listed _ _ mem := by simp [empty] at mem
  complete h key found := by simp [key?, get?] at found
  distinct h k text found := by simp [text?, get?] at found

/-- Only the table and the texts of the handles matter. -/
theorem Canonical.congr {other : Heap} (canonical : heap.Canonical)
    (interned : other.interned = heap.interned) (texts : ∀ h, other.text? h = heap.text? h) :
    other.Canonical := by
  have keys (h : Handle) : other.key? h = heap.key? h := by rw [key?_eq, key?_eq, texts]
  refine ⟨?_, ?_, ?_, ?_⟩
  · rw [interned]
    exact canonical.lawful
  · intro key v mem
    rw [interned] at mem
    rw [keys]
    exact canonical.listed key v mem
  · intro h key found
    rw [keys] at found
    rw [interned]
    exact canonical.complete h key found
  · intro h k text found found'
    rw [texts] at found found'
    exact canonical.distinct h k text found found'

/-! ## Looking up -/

/-- A text is looked up by its live string. -/
theorem Canonical.lookup?_eq_some_iff (canonical : heap.Canonical) :
    heap.lookup? text = some h ↔ heap.text? h = some text := by
  unfold lookup?
  constructor
  · intro found
    obtain ⟨key, listed, rfl⟩ := Option.map_eq_some_iff.mp found
    exact (Table.mem_of_findText?_eq_some listed).2.1
  · intro found
    obtain ⟨v, mem⟩ := canonical.complete h _ (key?_of_text? found)
    obtain ⟨k, eq⟩ := canonical.lawful.exists_findText? mem rfl found
    have same := (Table.mem_of_findText?_eq_some eq).2.1
    rw [eq, Option.map_some, canonical.distinct _ _ _ same found]

theorem Canonical.lookup?_eq_none_iff (canonical : heap.Canonical) :
    heap.lookup? text = none ↔ ∀ h, heap.text? h ≠ some text := by
  rw [Option.eq_none_iff_forall_ne_some]
  exact forall_congr' fun h => not_congr canonical.lookup?_eq_some_iff

/-! ## Collections and allocations -/

theorem text?_collect_iff (clean : heap.Clean) :
    (heap.collect roots).text? h = some text ↔ heap.text? h = some text ∧ heap.Reach roots h := by
  simp only [text?_eq_some_iff, get?_collect_iff clean]
  constructor
  · rintro ⟨s, ⟨found, reach⟩, eq⟩
    exact ⟨⟨s, found, eq⟩, reach⟩
  · rintro ⟨⟨s, found, eq⟩, reach⟩
    exact ⟨s, ⟨found, reach⟩, eq⟩

theorem key?_collect_iff (clean : heap.Clean) :
    (heap.collect roots).key? h = some key ↔ heap.key? h = some key ∧ heap.Reach roots h := by
  simp only [key?_eq_some_iff, text?_collect_iff clean]
  constructor
  · rintro ⟨same, text, ⟨found, reach⟩, hash⟩
    exact ⟨⟨same, text, found, hash⟩, reach⟩
  · rintro ⟨⟨same, text, found, hash⟩, reach⟩
    exact ⟨same, text, ⟨found, reach⟩, hash⟩

/-- The strings that a collection frees are those that it erases from the table. -/
theorem Canonical.collect (canonical : heap.Canonical) (clean : heap.Clean)
    (roots : List Handle) : (heap.collect roots).Canonical := by
  have mem (key : Key) (v : Value) : (key, v) ∈ (heap.collect roots).interned.entries ↔
      (key, v) ∈ heap.interned.entries ∧ heap.Reach roots key.handle := by
    rw [interned_collect clean, Table.mem_entries_eraseUnless_iff, clean.isMarked_traced_iff]
  refine ⟨?_, ?_, ?_, ?_⟩
  · rw [interned_collect clean]
    exact canonical.lawful.eraseUnless _
  · intro key v listed
    obtain ⟨listed, reach⟩ := (mem key v).mp listed
    exact (key?_collect_iff clean).mpr ⟨canonical.listed key v listed, reach⟩
  · intro h key found
    obtain ⟨found, reach⟩ := (key?_collect_iff clean).mp found
    obtain ⟨v, listed⟩ := canonical.complete h key found
    exact ⟨v, (mem key v).mpr ⟨listed, handle_of_key? found ▸ reach⟩⟩
  · intro h k text found found'
    exact canonical.distinct h k text ((text?_collect_iff clean).mp found).1
      ((text?_collect_iff clean).mp found').1

theorem Canonical.makeRoom (canonical : heap.Canonical) (clean : heap.Clean) (object : Object)
    (roots : List Handle) : (heap.makeRoom object roots).Canonical := by
  unfold Heap.makeRoom
  split
  · exact canonical.collect clean _
  · exact canonical

theorem text?_of_makeRoom (clean : heap.Clean) {object : Object}
    (found : (heap.makeRoom object roots).text? h = some text) : heap.text? h = some text := by
  revert found
  unfold makeRoom
  split
  · exact fun found => ((text?_collect_iff clean).mp found).1
  · exact id

@[simp] theorem interned_insert (heap : Heap) (object : Object) :
    (heap.insert object).2.interned = heap.interned := by simp [insert]

theorem get?_insert (heap : Heap) (object : Object) (h : Handle) :
    (heap.insert object).2.get? h =
      if h = (heap.insert object).1 then some object else heap.get? h := by
  rw [get?, cell?_insert]
  split <;> rfl

theorem text?_next (heap : Heap) : heap.text? ⟨heap.cells.size⟩ = none := by
  rw [Option.eq_none_iff_forall_ne_some]
  intro text found
  exact not_contains_next heap (contains_of_text? found)

/-- An object that is no string may be put into the heap. -/
theorem Canonical.allocate (canonical : heap.Canonical) (clean : heap.Clean) {object : Object}
    (other : object.kind ≠ .string) (roots : List Handle) :
    (heap.allocate object roots).2.Canonical := by
  refine (canonical.makeRoom clean object roots).congr (interned_insert _ _) ?_
  intro h
  by_cases eq : h = ((heap.makeRoom object roots).insert object).1
  · rw [eq, text?, Heap.allocate, get?_insert, if_pos rfl, insert_fst, text?_next]
    cases object <;> first | rfl | exact absurd rfl other
  · simp only [text?, Heap.allocate, get?_insert, if_neg eq]

/-! ## Interning -/

/-- No listed key bears the handle of the next cell. -/
theorem Canonical.agrees_next (canonical : heap.Canonical) (hash : UInt64) :
    heap.interned.Agrees ⟨⟨heap.cells.size⟩, hash⟩ := by
  intro k v mem same
  obtain ⟨-, _, found, -⟩ := key?_eq_some_iff.mp (canonical.listed k v mem)
  rw [same, text?_next] at found
  cases found

/-- Putting a new text into the heap and listing it. -/
private theorem Canonical.list (canonical : heap.Canonical)
    (new : ∀ k, heap.text? k ≠ some text) :
    Canonical { (heap.insert (.string { text })).2 with
      interned := ((heap.insert (.string { text })).2.interned.insert
        ⟨(heap.insert (.string { text })).1, Hash.ofText text⟩ .nil).2 } := by
  rw [interned_insert]
  -- Only the new handle gets a text; the others keep theirs.
  generalize eq : (heap.insert (.string { text })).1 = fresh
  have texts (k : Handle) : text? { (heap.insert (.string { text })).2 with
      interned := (heap.interned.insert ⟨fresh, Hash.ofText text⟩ .nil).2 } k =
        if k = fresh then some text else heap.text? k := by
    change (heap.insert (.string { text })).2.text? k = _
    by_cases same : k = fresh
    · simp [text?, get?_insert, eq, same]
    · simp [text?, get?_insert, eq, same]
  have agrees : heap.interned.Agrees ⟨fresh, Hash.ofText text⟩ :=
    eq ▸ canonical.agrees_next (Hash.ofText text)
  have mem (k : Key) (v : Value) :
      (k, v) ∈ (heap.interned.insert ⟨fresh, Hash.ofText text⟩ .nil).2.entries ↔
        k = ⟨fresh, Hash.ofText text⟩ ∧ v = .nil ∨
          k.handle ≠ fresh ∧ (k, v) ∈ heap.interned.entries :=
    canonical.lawful.mem_entries_insert_iff agrees
  refine ⟨canonical.lawful.insert agrees, ?_, ?_, ?_⟩
  · intro key v listed
    rw [key?_eq, texts]
    rcases (mem key v).mp listed with ⟨rfl, -⟩ | ⟨other, listed⟩
    · simp
    · rw [if_neg other, ← key?_eq]
      exact canonical.listed key v listed
  · intro h key found
    rw [key?_eq, texts] at found
    by_cases same : h = fresh
    · rw [if_pos same] at found
      exact ⟨.nil, (mem key _).mpr (.inl ⟨by simpa [same, eq_comm] using found, rfl⟩)⟩
    · rw [if_neg same, ← key?_eq] at found
      obtain ⟨v, listed⟩ := canonical.complete h key found
      exact ⟨v, (mem key v).mpr (.inr ⟨by rwa [handle_of_key? found], listed⟩)⟩
  · intro h k other found found'
    rw [texts] at found found'
    split at found <;> split at found'
    next here there => rw [here, there]
    -- One of the two is new, and its text is that of no old string.
    next => exact absurd (found'.trans found.symm) (new k)
    next => exact absurd (found.trans found'.symm) (new h)
    next => exact canonical.distinct h k other found found'

theorem Canonical.intern (canonical : heap.Canonical) (clean : heap.Clean) (text : String)
    (roots : List Handle) : (heap.intern text roots).2.Canonical := by
  unfold Heap.intern
  split
  · exact canonical
  next none =>
    apply (canonical.makeRoom clean (.string { text }) roots).list
    intro k found
    exact canonical.lookup?_eq_none_iff.mp none k (text?_of_makeRoom clean found)

/-- Interning gives the live string with the text, or puts it into the heap. -/
theorem interned_intern (canonical : heap.Canonical) (clean : heap.Clean) (text : String)
    (roots : List Handle) :
    (heap.text? (heap.intern text roots).1 = some text ∧ (heap.intern text roots).2 = heap) ∨
      (∀ k, heap.text? k ≠ some text) ∧ heap.Allocated (.string { text }) roots
        (heap.intern text roots).1 (heap.intern text roots).2 := by
  unfold Heap.intern
  split
  next h found => exact .inl ⟨canonical.lookup?_eq_some_iff.mp found, rfl⟩
  next none =>
    obtain ⟨fresh, size, new, kept, old, closed, after⟩ :=
      allocated_allocate clean (.string { text }) roots
    exact .inr ⟨canonical.lookup?_eq_none_iff.mp none,
      ⟨fresh, size, new, kept, old, closed, ⟨after.gray, after.unmarked⟩⟩⟩

theorem text?_intern (canonical : heap.Canonical) (clean : heap.Clean) (text : String)
    (roots : List Handle) :
    (heap.intern text roots).2.text? (heap.intern text roots).1 = some text := by
  rcases interned_intern canonical clean text roots with ⟨found, same⟩ | ⟨-, allocated⟩
  · rw [same, found]
  · rw [text?, get?, allocated.new, Option.map_some]

/-! ## Changing objects -/

theorem get?_modify (heap : Heap) (h k : Handle) (f : Object → Object) :
    (heap.modify h f).get? k = if k = h then (heap.get? k).map f else heap.get? k := by
  rw [get?, modify, cell?_modifyCell]
  split
  · cases found : heap.cell? k <;> simp [get?, found]
  · rfl

/-- An object may be changed that neither was a string nor becomes one. -/
theorem Canonical.modify {object : Object} {f : Object → Object} (canonical : heap.Canonical)
    (found : heap.get? h = some object) (before : object.kind ≠ .string)
    (after : (f object).kind ≠ .string) : (heap.modify h f).Canonical := by
  refine canonical.congr rfl ?_
  intro k
  by_cases eq : k = h
  · subst eq
    have none : heap.text? k = none := by
      rw [text?, found]
      cases object <;> first | rfl | exact absurd rfl before
    rw [none, text?, get?_modify, if_pos rfl, found, Option.map_some]
    cases eq : f object <;> first | rfl | exact absurd (congrArg Object.kind eq) after
  · simp only [text?, get?_modify, if_neg eq]

theorem get?_recharge (heap : Heap) (h k : Handle) : (heap.recharge h).get? k = heap.get? k := by
  unfold recharge
  split
  · rfl
  next cell found =>
    rw [get?, cell?_modifyCell]
    split
    next eq =>
      subst eq
      simp only [get?, found]
      change ((heap.cell? k).map _).map _ = _
      rw [found]
      rfl
    next => rfl

theorem Canonical.recharge (canonical : heap.Canonical) (h : Handle) :
    (heap.recharge h).Canonical := by
  refine canonical.congr ?_ fun k => ?_
  · unfold Heap.recharge
    split <;> rfl
  · rw [text?, get?_recharge, ← text?]

end Heap

end ScriptMachine
