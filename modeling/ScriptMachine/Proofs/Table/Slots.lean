/-
# The slots of tables

Every probe of a table relies on how its slots are used. Their number is nothing
or a power of two, both counters are right, a quarter of the slots is never used,
and each key can be reached from the slot that its hash names without passing a
slot that was never used. A slot without a key holds nil or true, and which of
the two tells a probe whether to go on. All this holds of every table that
operations make of the empty one, although each of them moves the counters and
the tombstones in a way of its own.

The slots are laid out anew in one case only. A key that would take more than
three quarters of the slots doubles them, and the tombstones are gone.

## Main definitions

* `Table.Cleared` — what slots without a key hold
* `Table.InOrder` — what holds of the slots of every table
* `Table.Enlarged` — a table was laid out anew
* `Table.Operation.Resizes` — what an operation does to the number of slots

## Main results

* `Cleared.insert`, `Cleared.erase`, `Cleared.eraseUnless` — what operations write into such slots
* `Lawful.reserve_eq_or_enlarged`, `Enlarged.insert` — when a table grows
* `performAll_entries` — copying a table sets its entries one at a time
* `slots_in_order` — the slots after any operations, and their number
-/

import ScriptMachine.Proofs.Table.Maps

namespace ScriptMachine

namespace Table

variable {hash : Handle → UInt64} {t : Table}

/-- A slot without a key holds nil, as it does at first, or true, as it does since its key was
removed. -/
def Cleared (slots : Array Slot) : Prop := ∀ v, .keyless v ∈ slots → v = .nil ∨ v = .bool true

/-- What holds of the slots of a table whose keys have these hashes. -/
structure InOrder (hash : Handle → UInt64) (t : Table) : Prop where
  capacity : t.capacity = 0 ∨ leastCapacity ≤ t.capacity ∧ ∃ n, t.capacity = 2 ^ n
  occupied : t.occupied = t.slots.countP fun s => s.isLive || s.isTombstone
  tombstones : t.tombstones = t.slots.countP Slot.isTombstone
  load : 4 * t.occupied ≤ 3 * t.capacity
  cleared : Cleared t.slots
  unique : ∀ (i j : Nat) (k k' : Key) (v v' : Value), t.slots[i]? = some (.live k v) →
    t.slots[j]? = some (.live k' v') → k.handle = k'.handle → i = j
  /-- The way from the home slot of a key to the slot of the key leads over used slots. -/
  path : ∀ (i : Nat) (k : Key) (v : Value), t.slots[i]? = some (.live k v) →
    k.hash = hash k.handle ∧ ∃ n, (next t.slots)^[n] (home t.slots k.hash) = i ∧
      ∀ m < n, ∃ s, t.slots[(next t.slots)^[m] (home t.slots k.hash)]? = some s ∧ s ≠ .vacant

/-- The table was laid out anew in twice as many slots, or in the least number of them. No
tombstone is left. -/
structure Enlarged (t t' : Table) : Prop where
  capacity : t'.capacity = max leastCapacity (2 * t.capacity)
  tombstones : t'.tombstones = 0
  swept : ∀ s ∈ t'.slots, ¬ s.isTombstone

/-- What an operation does to the number of slots. Setting a key leaves it, or the table is laid out
anew first; copying one table into another sets its entries, one at a time; all else leaves it. -/
def Operation.Resizes (hash : Handle → UInt64) (tables : Nat → Table) : Operation → Prop
  | insert target h v =>
    let t := tables target
    let t' := (t.insert ⟨h, hash h⟩ v).2
    t'.capacity = t.reserve.capacity ∧
      (t.reserve = t ∨ Enlarged t t.reserve ∧ Enlarged t t') ∧
      performAll hash tables [insert target h v] = Function.update tables target t'
  | addAll target source =>
    performAll hash tables [addAll target source] = performAll hash tables
      ((tables source).entries.map fun e => insert target e.1.handle e.2)
  | copy target source =>
    performAll hash tables [copy target source] = Function.update tables target (tables source)
  | op => ∀ i, (performAll hash tables [op] i).capacity = (tables i).capacity

/-! ## Slots without a key -/

namespace Cleared

variable {slots : Array Slot} {s : Slot}

theorem set (cleared : Cleared slots) (i : Nat)
    (new : ∀ v, s = .keyless v → v = .nil ∨ v = .bool true) :
    Cleared (slots.setIfInBounds i s) := by
  intro v mem
  obtain old | eq := Array.mem_or_eq_of_mem_setIfInBounds mem
  · exact cleared v old
  · exact new v eq.symm

theorem set_live (cleared : Cleared slots) (i : Nat) (key : Key) (value : Value) :
    Cleared (slots.setIfInBounds i (.live key value)) :=
  cleared.set i fun v eq => by cases eq

theorem foldl_place (cleared : Cleared slots) (rest : List Slot) :
    Cleared (rest.foldl place slots) := by
  induction rest generalizing slots with
  | nil => exact cleared
  | cons s rest ih =>
    refine ih ?_
    cases s with
    | vacant | tombstone => exact cleared
    | live key value =>
      simp only [place]
      split
      · exact cleared.set_live _ _ _
      · exact cleared

/-- Whatever the slots hold, those that are laid out anew are fresh or live. -/
theorem rehash (t : Table) (n : Nat) : Cleared (t.rehash n).slots := by
  have fresh : Cleared (Array.replicate n .vacant) := fun v mem =>
    .inl (by simpa using (Array.mem_replicate.mp mem).2)
  rw [Table.rehash, ← Array.foldl_toList]
  exact fresh.foldl_place _

theorem reserve (cleared : Cleared t.slots) : Cleared t.reserve.slots := by
  rw [Table.reserve]
  split
  · exact rehash _ _
  · exact cleared

theorem insert (cleared : Cleared t.slots) (key : Key) (value : Value) :
    Cleared (t.insert key value).2.slots := by
  have reserved := cleared.reserve
  rw [Table.insert]
  split
  · exact reserved
  · split
    · exact reserved
    all_goals exact reserved.set_live _ _ _

theorem insertAll (cleared : Cleared t.slots) (entries : List (Key × Value)) :
    Cleared (t.insertAll entries).slots := by
  induction entries generalizing t with
  | nil => exact cleared
  | cons e entries ih => exact ih (cleared.insert e.1 e.2)

/-- Erasing writes true. -/
theorem erase (cleared : Cleared t.slots) (key : Key) : Cleared (t.erase key).2.slots := by
  rw [Table.erase]
  split
  · exact cleared
  · split
    · exact cleared
    · split
      · exact cleared.set _ fun v eq => .inr (by simpa using eq.symm)
      · exact cleared

theorem eraseUnless (cleared : Cleared t.slots) (keep : Handle → Bool) :
    Cleared (t.eraseUnless keep).2.slots := by
  intro v mem
  obtain ⟨s, mem, eq⟩ := Array.mem_map.mp mem
  split at eq
  · exact .inr (by simpa using eq.symm)
  · exact cleared v (eq ▸ mem)

variable {tables : Nat → Table}

theorem update (cleared : ∀ i, Cleared (tables i).slots) (target : Nat)
    (new : Cleared t.slots) (i : Nat) : Cleared (Function.update tables target t i).slots := by
  by_cases eq : i = target
  · rwa [eq, Function.update_self]
  · rw [Function.update_of_ne eq]
    exact cleared i

theorem perform (cleared : ∀ i, Cleared (tables i).slots) (op : Operation) :
    ∀ i, Cleared ((op.perform hash tables).2 i).slots := by
  cases op with
  | insert target h v => exact update cleared target ((cleared target).insert _ _)
  | erase target h => exact update cleared target ((cleared target).erase _)
  | addAll target source => exact update cleared target ((cleared target).insertAll _)
  | copy target source => exact update cleared target (cleared source)
  | eraseUnless target keep => exact update cleared target ((cleared target).eraseUnless keep)
  | get? | contains | isEmpty | size | entries => exact cleared

theorem performAll (cleared : ∀ i, Cleared (tables i).slots) (ops : List Operation) :
    ∀ i, Cleared (performAll hash tables ops i).slots := by
  induction ops generalizing tables with
  | nil => exact cleared
  | cons op ops ih => exact ih (perform cleared op)

end Cleared

/-! ## The slots in order -/

theorem Represents.inOrder {map : PlainMap} (represents : Represents hash t map)
    (cleared : Cleared t.slots) : t.InOrder hash := by
  have lawful := represents.lawful
  refine ⟨?_, ?_, lawful.tombstones, ?_, cleared, lawful.layout.unique, fun i k v found => ?_⟩
  · obtain none | ⟨n, eq⟩ := lawful.layout.capacity
    · exact .inl none
    · refine .inr ⟨?_, n + 3, eq⟩
      have := Nat.pow_le_pow_right (n := 2) (by omega) (Nat.le_add_left 3 n)
      rw [capacity, eq, leastCapacity]
      omega
  · rw [lawful.occupied]
    exact Array.countP_congr fun s _ => by cases s <;> simp [Slot.isUsed, Slot.isTombstone]
  · have := lawful.load
    omega
  · have mem := mem_entries_iff_getElem?.mpr ⟨i, found⟩
    obtain ⟨n, lt, eq, used⟩ := lawful.layout.path i k v found
    have room : 0 < t.slots.size := Nat.zero_lt_of_lt lt
    simp only [lawful.layout.rounded.iterate_next room]
    refine ⟨((represents.mem k v).mp mem).1, n, eq, fun m below => ?_⟩
    have inside := Array.getElem?_eq_getElem (stop_lt room k.hash m)
    exact ⟨_, inside, fun vacant => used m below (inside.trans (congrArg some vacant))⟩

/-! ## Growing -/

@[simp] theorem size_place (slots : Array Slot) (s : Slot) : (place slots s).size = slots.size := by
  cases s with
  | live key value =>
    simp only [place]
    split <;> simp
  | vacant | tombstone => rfl

@[simp] theorem size_foldl_place (rest : List Slot) (slots : Array Slot) :
    (rest.foldl place slots).size = slots.size := by
  induction rest generalizing slots with
  | nil => rfl
  | cons s rest ih => rw [List.foldl_cons, ih, size_place]

@[simp] theorem capacity_rehash (t : Table) (n : Nat) : (t.rehash n).capacity = n := by
  simp [rehash, capacity, ← Array.foldl_toList]

/-- Room for one more key is there, or the table is laid out anew, and then no tombstone is left. -/
theorem Lawful.reserve_eq_or_enlarged (lawful : t.Lawful) :
    t.reserve = t ∨ Enlarged t t.reserve := by
  have counted := lawful.reserve.1.tombstones
  rw [Table.reserve] at counted ⊢
  split at counted
  next full =>
    rw [if_pos full]
    refine .inr ⟨by rw [capacity_rehash, Nat.max_comm, Nat.mul_comm], rfl,
      fun s mem tombstone => ?_⟩
    have : 0 < (t.rehash (max (t.capacity * 2) leastCapacity)).tombstones := by
      rw [counted]
      exact Array.countP_pos_iff.mpr ⟨s, mem, tombstone⟩
    exact absurd this (Nat.lt_irrefl 0)
  next room => exact .inl (if_neg room)

@[simp] theorem capacity_insert (t : Table) (key : Key) (value : Value) :
    (t.insert key value).2.capacity = t.reserve.capacity := by
  rw [insert]
  split
  · rfl
  · split <;> simp [capacity]

/-- Setting a key leaves no tombstone where there was none. -/
theorem Enlarged.insert (enlarged : Enlarged t t.reserve) (key : Key) (value : Value) :
    Enlarged t (t.insert key value).2 := by
  have swept (i : Nat) :
      ∀ s ∈ t.reserve.slots.setIfInBounds i (.live key value), ¬ s.isTombstone := by
    intro s mem
    obtain mem | rfl := Array.mem_or_eq_of_mem_setIfInBounds mem
    · exact enlarged.swept s mem
    · simp
  refine ⟨by rw [capacity_insert, enlarged.capacity], ?_, ?_⟩
  · rw [Table.insert]
    split
    · exact enlarged.tombstones
    · split <;> simp [enlarged.tombstones]
  · rw [Table.insert]
    split
    · exact enlarged.swept
    · split
      · exact enlarged.swept
      all_goals exact swept _

@[simp] theorem capacity_erase (t : Table) (key : Key) :
    (t.erase key).2.capacity = t.capacity := by
  rw [erase]
  split
  · rfl
  · split
    · rfl
    · split <;> simp [capacity]

@[simp] theorem capacity_eraseUnless (t : Table) (keep : Handle → Bool) :
    (t.eraseUnless keep).2.capacity = t.capacity := by
  simp [eraseUnless, capacity]

/-! ## Operations -/

variable {tables : Nat → Table} {maps : Nat → PlainMap}

/-- Setting entries one at a time changes one table. -/
theorem performAll_entries (target : Nat) {entries : List (Key × Value)}
    (hashed : ∀ e ∈ entries, e.1.hash = hash e.1.handle) :
    performAll hash tables (entries.map fun e => .insert target e.1.handle e.2) =
      Function.update tables target ((tables target).insertAll entries) := by
  induction entries generalizing tables with
  | nil => exact (Function.update_eq_self target tables).symm
  | cons e entries ih =>
    obtain ⟨key, value⟩ := e
    have same : (⟨key.handle, hash key.handle⟩ : Key) = key := by
      rw [← hashed _ List.mem_cons_self]
    have rest := @ih (Operation.perform hash tables (.insert target key.handle value)).2
      fun e mem => hashed e (List.mem_cons_of_mem _ mem)
    rw [List.map_cons, performAll, List.foldl_cons, ← performAll, rest]
    simp only [Operation.perform, same, Function.update_self, Function.update_idem, insertAll,
      List.foldl_cons]

/-- Replacing a table by one with as many slots. -/
theorem capacity_update {target : Nat} (same : t.capacity = (tables target).capacity) (i : Nat) :
    (Function.update tables target t i).capacity = (tables i).capacity := by
  by_cases eq : i = target
  · rw [eq, Function.update_self, same]
  · rw [Function.update_of_ne eq]

theorem resizes_of_represents (represents : ∀ i, Represents hash (tables i) (maps i))
    (op : Operation) : op.Resizes hash tables := by
  cases op with
  | insert target h v =>
    refine ⟨capacity_insert _ _ _, ?_, rfl⟩
    exact (represents target).lawful.reserve_eq_or_enlarged.imp_right
      fun enlarged => ⟨enlarged, enlarged.insert _ _⟩
  | addAll target source =>
    refine (performAll_entries target fun e mem => ?_).symm
    exact (((represents source).mem e.1 e.2).mp mem).1
  | copy => rfl
  | erase target h => exact capacity_update (capacity_erase _ _)
  | eraseUnless target keep => exact capacity_update (capacity_eraseUnless _ _)
  | get? | contains | isEmpty | size | entries => exact fun _ => rfl

/-- After any operations on tables that start empty, whatever the hashes of the handles are, the
slots of every table are in order: there are none or a power of two of them, at least eight; the
counters count the used slots and the tombstones among them, and three quarters of the slots at most
are used; slots without a key hold nil or true; no handle lies in two slots, and no slot on the way
of a probe to a key was never used.
The next operation changes the number of slots only by setting a key, to twice as many or to eight,
and then no tombstone is left. -/
theorem slots_in_order (hash : Handle → UInt64) (ops : List Operation) :
    (∀ i, (performAll hash (fun _ => empty) ops i).InOrder hash) ∧
      ∀ op : Operation, op.Resizes hash (performAll hash (fun _ => empty) ops) := by
  obtain ⟨-, maps, represents⟩ := allAnsweredBy_answers (fun _ => Represents.empty hash) ops
  have cleared : ∀ i, Cleared (performAll hash (fun _ => empty) ops i).slots :=
    .performAll (fun _ v mem => absurd mem (Array.not_mem_empty _)) ops
  exact ⟨fun i => (represents i).inOrder (cleared i), resizes_of_represents represents⟩

end Table

end ScriptMachine
