/-
# Handles that were handed out

A heap hands out handles in order, and whoever refers to an object can do so only by a handle that
was handed out before, whether or not its object is still live. Under this condition any work on a
heap keeps methods older than the bound methods that refer to them: a bound method gets its method
when it is allocated, and what is replaced in place never becomes a bound method. A collection only
takes objects away.

Tables have no part in this but to pass handles on. Whatever slots their entries lie in, and whether
or not keys agree on their hashes, an entry of a table was set in it.

## Main definitions

* `Value.Below`, `Table.Below`, `Object.Below` — all handles are among the first ones handed out
* `Heap.Dated` — a heap that has handed out so many handles, and refers to no others
* `Heap.Works` — what may be done to a heap with handles that were handed out

## Main results

* `Dated.allocate`, `Dated.intern`, `Dated.modify`, `Dated.collect` — operations of a dated heap
* `Works.dated` — any work leaves a dated heap
-/

import ScriptMachine.Proofs.Heap.Rendering
import ScriptMachine.Proofs.Heap.Soundness

namespace ScriptMachine

/-! ## Entries of tables -/

namespace Table

variable {t source : Table} {key k : Key} {value v : Value} {slots : Array Slot} {s : Slot}

theorem live_mem_setIfInBounds {i : Nat} (mem : .live k v ∈ slots.setIfInBounds i s) :
    .live k v = s ∨ .live k v ∈ slots := by
  obtain old | new := Array.mem_or_eq_of_mem_setIfInBounds mem
  · exact .inr old
  · exact .inl new

theorem live_mem_place (mem : .live k v ∈ place slots s) : .live k v = s ∨ .live k v ∈ slots := by
  cases s with
  | vacant | tombstone => exact .inr mem
  | live key value =>
    simp only [place] at mem
    split at mem
    · exact live_mem_setIfInBounds mem
    · exact .inr mem

theorem live_mem_foldl_place {rest : List Slot} (mem : .live k v ∈ rest.foldl place slots) :
    .live k v ∈ rest ∨ .live k v ∈ slots := by
  induction rest generalizing slots with
  | nil => exact .inr mem
  | cons s rest ih =>
    obtain later | placed := ih mem
    · exact .inl (List.mem_cons_of_mem _ later)
    · obtain rfl | old := live_mem_place placed
      · exact .inl List.mem_cons_self
      · exact .inr old

theorem mem_entries_of_reserve (mem : (k, v) ∈ t.reserve.entries) : (k, v) ∈ t.entries := by
  rw [reserve] at mem
  split at mem
  · rw [mem_entries_iff, rehash, ← Array.foldl_toList] at mem
    obtain old | fresh := live_mem_foldl_place mem
    · exact mem_entries_iff.mpr (Array.mem_toList_iff.mp old)
    · cases (Array.mem_replicate.mp fresh).2
  · exact mem

theorem mem_entries_of_insert (mem : (k, v) ∈ (t.insert key value).2.entries) :
    k = key ∧ v = value ∨ (k, v) ∈ t.entries := by
  have written {i occupied tombstones : Nat}
      (mem : (k, v) ∈ entries ⟨occupied, tombstones,
        t.reserve.slots.setIfInBounds i (.live key value)⟩) :
      k = key ∧ v = value ∨ (k, v) ∈ t.entries := by
    obtain new | old := live_mem_setIfInBounds (mem_entries_iff.mp mem)
    · exact .inl (by simpa using new)
    · exact .inr (mem_entries_of_reserve (mem_entries_iff.mpr old))
  -- The key may be put nowhere, and then the table has only been laid out anew.
  rw [insert] at mem
  split at mem
  · exact .inr (mem_entries_of_reserve mem)
  · split at mem
    · exact .inr (mem_entries_of_reserve mem)
    all_goals exact written mem

theorem mem_entries_of_erase (mem : (k, v) ∈ (t.erase key).2.entries) : (k, v) ∈ t.entries := by
  rw [erase] at mem
  split at mem
  · exact mem
  · split at mem
    · exact mem
    · split at mem
      · obtain erased | old := live_mem_setIfInBounds (mem_entries_iff.mp mem)
        · cases erased
        · exact mem_entries_iff.mpr old
      · exact mem

theorem mem_entries_of_insertAll {rest : List (Key × Value)}
    (mem : (k, v) ∈ (t.insertAll rest).entries) : (k, v) ∈ rest ∨ (k, v) ∈ t.entries := by
  induction rest generalizing t with
  | nil => exact .inr mem
  | cons e rest ih =>
    obtain later | here := ih mem
    · exact .inl (List.mem_cons_of_mem _ later)
    · obtain ⟨rfl, rfl⟩ | old := mem_entries_of_insert here
      · exact .inl List.mem_cons_self
      · exact .inr old

theorem exists_mem_entries_of_get? (found : t.get? key = some v) : ∃ k, (k, v) ∈ t.entries := by
  rw [get?] at found
  split at found
  · cases found
  · simp only [Option.bind_eq_bind, Option.bind_eq_some_iff] at found
    obtain ⟨i, -, s, at_, ⟨k, w⟩, binds, eq⟩ := found
    obtain rfl : w = v := by simpa using eq
    cases s <;> simp only [Slot.binding?, reduceCtorEq, Option.some.injEq] at binds
    obtain ⟨rfl, rfl⟩ := Prod.mk.inj binds
    exact ⟨_, mem_entries_iff_getElem?.mpr ⟨i, at_⟩⟩

end Table

/-! ## Handles below a number -/

/-- The handle of the value, if it has one, is among the first ones. -/
def Value.Below (n : Nat) (v : Value) : Prop := ∀ h, v.handle? = some h → h.index < n

/-- All handles in the table are among the first ones. -/
def Table.Below (n : Nat) (t : Table) : Prop := ∀ h ∈ Object.tableReferences t, h.index < n

/-- The object refers to the first handles only. -/
def Object.Below (n : Nat) (o : Object) : Prop := ∀ h ∈ o.references, h.index < n

instance (n : Nat) (t : Table) : Decidable (t.Below n) :=
  inferInstanceAs (Decidable (∀ h ∈ Object.tableReferences t, h.index < n))

instance (n : Nat) (o : Object) : Decidable (o.Below n) :=
  inferInstanceAs (Decidable (∀ h ∈ o.references, h.index < n))

variable {n n' : Nat} {v : Value} {t source : Table} {key : Key} {o : Object} {h : Handle}

theorem Value.Below.mono (below : v.Below n) (le : n ≤ n') : v.Below n' :=
  fun h eq => Nat.lt_of_lt_of_le (below h eq) le

theorem Value.below_object (lt : h.index < n) : (Value.object h).Below n := by
  rintro _ ⟨⟩
  exact lt

/-- Values without a handle. -/
theorem Value.below_of_handle? (none : v.handle? = none) : v.Below n := by
  intro h eq
  rw [none] at eq
  cases eq

theorem Object.Below.mono (below : o.Below n) (le : n ≤ n') : o.Below n' :=
  fun h mem => Nat.lt_of_lt_of_le (below h mem) le

namespace Table

theorem below_iff :
    t.Below n ↔ ∀ k v, (k, v) ∈ t.entries → k.handle.index < n ∧ v.Below n := by
  constructor
  · intro below k v mem
    exact ⟨below _ (Object.mem_tableReferences_iff.mpr ⟨k, v, mem, .inl rfl⟩),
      fun h eq => below h (Object.mem_tableReferences_iff.mpr ⟨k, v, mem, .inr eq⟩)⟩
  · intro all h mem
    obtain ⟨k, v, entry, rfl | eq⟩ := Object.mem_tableReferences_iff.mp mem
    · exact (all k v entry).1
    · exact (all k v entry).2 h eq

theorem below_empty : empty.Below n := below_iff.mpr fun k v mem => by simp at mem

namespace Below

theorem mono (below : t.Below n) (le : n ≤ n') : t.Below n' :=
  fun h mem => Nat.lt_of_lt_of_le (below h mem) le

theorem insert (below : t.Below n) (named : key.handle.index < n) (known : v.Below n) :
    (t.insert key v).2.Below n := by
  rw [below_iff] at below ⊢
  intro k w mem
  obtain ⟨rfl, rfl⟩ | old := mem_entries_of_insert mem
  · exact ⟨named, known⟩
  · exact below k w old

theorem erase (below : t.Below n) (key : Key) : (t.erase key).2.Below n := by
  rw [below_iff] at below ⊢
  exact fun k w mem => below k w (mem_entries_of_erase mem)

theorem addAll (below : t.Below n) (below' : source.Below n) : (t.addAll source).Below n := by
  rw [below_iff] at below below' ⊢
  intro k w mem
  obtain new | old := mem_entries_of_insertAll mem
  · exact below' k w new
  · exact below k w old

theorem get? (below : t.Below n) (found : t.get? key = some v) : v.Below n := by
  obtain ⟨k, mem⟩ := exists_mem_entries_of_get? found
  exact (below_iff.mp below k v mem).2

end Below

end Table

/-! ## Dated heaps -/

namespace Heap

variable {heap after : Heap} {object : Object} {text : String} {k : Handle}

/-- The heap has handed out so many handles, and its objects refer to no others. Methods are older
than what binds them. -/
structure Dated (n : Nat) (heap : Heap) : Prop where
  size : heap.cells.size = n
  clean : heap.Clean
  below : ∀ h o, heap.get? h = some o → o.Below n
  descending : heap.Descending

theorem dated_empty (config : Config) : (empty config).Dated 0 where
  size := rfl
  clean := clean_empty config
  below h o found := by simp [get?] at found
  descending := by
    rintro h method ⟨receiver, found⟩
    simp [get?] at found

namespace Dated

theorem lt_of_contains (dated : heap.Dated n) (live : heap.contains h) : h.index < n :=
  dated.size ▸ lt_size_of_contains live

/-- Objects may be taken away. -/
theorem of_get? (dated : heap.Dated n) (size : after.cells.size = n) (clean : after.Clean)
    (old : ∀ h o, after.get? h = some o → heap.get? h = some o) : after.Dated n where
  size := size
  clean := clean
  below h o found := dated.below h o (old h o found)
  descending h method binds :=
    dated.descending h method (binds.imp fun _ found => old h _ found)

theorem collect (dated : heap.Dated n) (roots : List Handle) : (heap.collect roots).Dated n :=
  dated.of_get? ((size_cells_collect dated.clean roots).trans dated.size)
    (dated.clean.collect roots) fun _ _ found => ((get?_collect_iff dated.clean).mp found).1

/-- A new object is younger than all that it refers to. -/
theorem allocate (dated : heap.Dated n) (roots : List Handle) (below : object.Below n) :
    (heap.allocate object roots).1.index = n ∧ (heap.allocate object roots).2.Dated (n + 1) := by
  have allocated := allocated_allocate dated.clean object roots
  have index : (heap.allocate object roots).1.index = n := by
    rw [allocated.fresh, dated.size]
  have old {k : Handle} {o : Object} (other : k ≠ (heap.allocate object roots).1)
      (found : (heap.allocate object roots).2.get? k = some o) : heap.get? k = some o :=
    allocated.get?_old other found
  refine ⟨index, by rw [allocated.size, dated.size], allocated.clean, fun k o found => ?_, ?_⟩
  · by_cases new : k = (heap.allocate object roots).1
    · subst new
      obtain rfl : object = o := Option.some.inj (allocated.get?.symm.trans found)
      exact below.mono (Nat.le_succ n)
    · exact (dated.below k o (old new found)).mono (Nat.le_succ n)
  · rintro k method ⟨receiver, found⟩
    by_cases new : k = (heap.allocate object roots).1
    · subst new
      obtain rfl : object = .bound receiver method :=
        Option.some.inj (allocated.get?.symm.trans found)
      rw [index]
      exact below method (List.mem_append_right _ List.mem_cons_self)
    · exact dated.descending k method ⟨receiver, old new found⟩

/-- A string with the text is there, or it is put into the heap. -/
theorem intern (dated : heap.Dated n) (text : String) (roots : List Handle) :
    ∃ n', n ≤ n' ∧ (heap.intern text roots).1.index < n' ∧
      (heap.intern text roots).2.Dated n' := by
  unfold Heap.intern
  split
  next h found =>
    obtain ⟨key, same, rfl⟩ := Option.map_eq_some_iff.mp found
    obtain ⟨-, resolved, -⟩ := Table.mem_of_findText?_eq_some same
    exact ⟨n, Nat.le_refl n, dated.lt_of_contains (contains_of_text? resolved), dated⟩
  next =>
    have below : (Object.string { text }).Below n := fun h mem => by cases mem
    obtain ⟨index, dated⟩ := dated.allocate roots below
    refine ⟨n + 1, Nat.le_succ n, ?_, ⟨dated.size, ?_, dated.below, dated.descending⟩⟩
    · rw [index]
      exact Nat.lt_succ_self n
    · exact ⟨dated.clean.gray, dated.clean.unmarked⟩

/-- An object may be replaced in place by another that is no bound method. -/
theorem modify {f : Object → Object} (dated : heap.Dated n)
    (replaces : ∀ object, heap.get? h = some object →
      f object = object ∨ (f object).kind ≠ .bound ∧ (f object).Below n) :
    (heap.modify h f).Dated n := by
  -- Whatever is found afterwards was there before, or it is such another object.
  have cases_ {k : Handle} {o : Object} (found : (heap.modify h f).get? k = some o) :
      heap.get? k = some o ∨ o.kind ≠ .bound ∧ o.Below n := by
    rw [get?_modify] at found
    split at found
    next here =>
      subst here
      obtain ⟨object, before, rfl⟩ := Option.map_eq_some_iff.mp found
      obtain same | other := replaces object before
      · exact .inl (by rw [same, before])
      · exact .inr other
    next => exact .inl found
  refine ⟨(size_cells_modify heap h f).trans dated.size, dated.clean.modify h f,
    fun k o found => ?_, ?_⟩
  · obtain old | ⟨-, below⟩ := cases_ found
    · exact dated.below k o old
    · exact below
  · rintro k method ⟨receiver, found⟩
    obtain old | ⟨other, -⟩ := cases_ found
    · exact dated.descending k method ⟨receiver, old⟩
    · exact absurd rfl other

theorem recharge (dated : heap.Dated n) (h : Handle) : (heap.recharge h).Dated n :=
  dated.of_get? ((size_cells_recharge heap h).trans dated.size) (dated.clean.recharge h)
    fun k o found => by rwa [get?_recharge] at found

theorem setUpvalue {u : Upvalue} (dated : heap.Dated n) (h : Handle)
    (below : (Object.upvalue u).Below n) : (heap.setUpvalue h u).Dated n :=
  dated.modify fun _ _ => .inr ⟨nofun, below⟩

theorem setFields {fields : Table} (dated : heap.Dated n) (h : Handle) (below : fields.Below n) :
    (heap.setFields h fields).Dated n := by
  refine dated.modify fun object found => ?_
  cases object with
  | inst c old =>
    have owner := dated.below h _ found c List.mem_cons_self
    exact .inr ⟨nofun, List.forall_mem_cons.mpr ⟨owner, below⟩⟩
  | _ => exact .inl rfl

theorem setMethods {methods : Table} (dated : heap.Dated n) (h : Handle)
    (below : methods.Below n) : (heap.setMethods h methods).Dated n := by
  refine dated.modify fun object found => ?_
  cases object with
  | cls name old =>
    have named := dated.below h _ found name List.mem_cons_self
    exact .inr ⟨nofun, List.forall_mem_cons.mpr ⟨named, below⟩⟩
  | _ => exact .inl rfl

theorem pushCaptured {u : Handle} (dated : heap.Dated n) (h : Handle) (lt : u.index < n) :
    (heap.pushCaptured h u).Dated n := by
  refine dated.modify fun object found => ?_
  cases object with
  | closure f upvalues reserved =>
    have before := dated.below h _ found
    refine .inr ⟨nofun, fun k mem => ?_⟩
    simp only [Object.references, Array.toList_push, List.mem_cons, List.mem_append] at mem
    obtain rfl | mem | rfl | none := mem
    · exact before _ List.mem_cons_self
    · exact before k (List.mem_cons_of_mem _ mem)
    · exact lt
    · cases none
  | _ => exact .inl rfl

end Dated

/-! ## Work on a heap -/

/-- What may be done to a heap, with handles that it has handed out. The objects behind them may
have been freed since. -/
inductive Works (heap : Heap) : Heap → Prop
  /-- An object of any kind is put into the heap. -/
  | allocate (object : Object) (roots : List Handle) (below : object.Below heap.cells.size) :
    Works heap (heap.allocate object roots).2
  | intern (text : String) (roots : List Handle) : Works heap (heap.intern text roots).2
  /-- Whatever an object is, it becomes a captured variable: an open one, or one with this value. -/
  | setUpvalue (h : Handle) (u : Upvalue) (below : (Object.upvalue u).Below heap.cells.size) :
    Works heap (heap.setUpvalue h u)
  | pushCaptured (h u : Handle) (lt : u.index < heap.cells.size) :
    Works heap (heap.pushCaptured h u)
  /-- An instance gets other fields. -/
  | setFields (h : Handle) (fields : Table) (below : fields.Below heap.cells.size) :
    Works heap (heap.setFields h fields)
  /-- A class gets other methods. -/
  | setMethods (h : Handle) (methods : Table) (below : methods.Below heap.cells.size) :
    Works heap (heap.setMethods h methods)
  | recharge (h : Handle) : Works heap (heap.recharge h)
  | collect (roots : List Handle) : Works heap (heap.collect roots)

/-- Any work leaves a dated heap, which has handed out no fewer handles. -/
theorem Works.dated (works : heap.Works after) (dated : heap.Dated n) :
    ∃ n', n ≤ n' ∧ after.Dated n' := by
  have size := dated.size
  cases works with
  | allocate object roots below =>
    exact ⟨n + 1, Nat.le_succ n, (dated.allocate roots (size ▸ below)).2⟩
  | intern text roots =>
    obtain ⟨n', le, -, dated'⟩ := dated.intern text roots
    exact ⟨n', le, dated'⟩
  | setUpvalue h u below => exact ⟨n, Nat.le_refl n, dated.setUpvalue h (size ▸ below)⟩
  | pushCaptured h u lt => exact ⟨n, Nat.le_refl n, dated.pushCaptured h (size ▸ lt)⟩
  | setFields h fields below => exact ⟨n, Nat.le_refl n, dated.setFields h (size ▸ below)⟩
  | setMethods h methods below => exact ⟨n, Nat.le_refl n, dated.setMethods h (size ▸ below)⟩
  | recharge h => exact ⟨n, Nat.le_refl n, dated.recharge h⟩
  | collect roots => exact ⟨n, Nat.le_refl n, dated.collect roots⟩

end Heap

end ScriptMachine
