/-
# Tables are maps

The counters of a table count its used slots and its tombstones, and at most
three quarters of the slots are used. Together with the layout of the slots
this makes every operation behave as on a map from keys to values. What a table
maps is read off its entries, whatever slots these lie in.

Keys are found by their handles, and the hash of a key decides where the search
starts. So an operation is told that its key agrees with the table: a key of
the table with the same handle is the same key.

## Main definitions

* `Table.Lawful` — counters and layout are in order
* `Table.Roomy` — a quarter of the slots was never used
* `Table.Agrees` — no key of the table has the handle of this key and another hash
* `Table.Searchable` — every search for the key comes to a slot
* `Table.TextSearchable` — the search for the text comes to an end

## Main results

* `Lawful.get?_eq_some_iff` — looking up finds the entries
* `Lawful.insert`, `Lawful.mem_entries_insert_iff`, `Lawful.insert_fst_iff` — insertion
* `Lawful.erase`, `Lawful.mem_entries_erase_iff` — removal
* `Lawful.eraseUnless`, `mem_entries_eraseUnless_iff` — keeping some keys
* `Lawful.addAll` — copying a table
* `Lawful.size_eq`, `Lawful.ncard_handles`, `eraseUnless_fst` — counting entries
* `Lawful.searchable`, `Lawful.textSearchable` — no search goes on for ever
* `mem_of_findText?_eq_some`, `Lawful.exists_findText?` — looking for a text
-/

import Mathlib.Data.Set.Card
import ScriptMachine.Proofs.Table.Probing

namespace ScriptMachine

namespace Table

variable {t : Table} {key k : Key} {value v : Value} {slots : Array Slot} {i : Nat}

/-- The counters and the slots of a table are in order. -/
structure Lawful (t : Table) : Prop where
  layout : Layout t.slots
  occupied : t.occupied = t.slots.countP Slot.isUsed
  tombstones : t.tombstones = t.slots.countP Slot.isTombstone
  load : t.occupied * 4 ≤ t.capacity * 3

/-- A key of the table that has the handle of this key is this key. -/
def Agrees (t : Table) (key : Key) : Prop :=
  ∀ k v, (k, v) ∈ t.entries → k.handle = key.handle → k = key

theorem lawful_empty : empty.Lawful := ⟨.nil, rfl, rfl, Nat.le_refl 0⟩

/-! ## Entries and slots -/

theorem mem_entries_iff : (key, value) ∈ t.entries ↔ .live key value ∈ t.slots := by
  simp only [entries, List.mem_filterMap, Array.mem_toList_iff]
  constructor
  · rintro ⟨s, mem, eq⟩
    cases s <;> simp_all [Slot.binding?]
  · exact fun mem => ⟨_, mem, rfl⟩

theorem mem_entries_iff_getElem? :
    (key, value) ∈ t.entries ↔ ∃ i : Nat, t.slots[i]? = some (.live key value) := by
  rw [mem_entries_iff, Array.mem_iff_getElem?]

theorem absent_iff :
    (∀ s ∈ t.slots, ¬ s.holds key.handle) ↔ ∀ k v, (k, v) ∈ t.entries → k.handle ≠ key.handle := by
  constructor
  · intro absent k v mem same
    exact absent _ (mem_entries_iff.mp mem) (Slot.holds_iff.mpr ⟨k, v, rfl, same⟩)
  · intro absent s mem held
    obtain ⟨k, v, rfl, same⟩ := Slot.holds_iff.mp held
    exact absent k v (mem_entries_iff.mpr mem) same

/-- A key that agrees with the table is in one of its slots, or in none is its handle. -/
theorem Agrees.present_or_absent (agrees : t.Agrees key) :
    (∃ (i : Nat) (v : Value), t.slots[i]? = some (.live key v)) ∨
      ∀ s ∈ t.slots, ¬ s.holds key.handle := by
  by_cases absent : ∀ s ∈ t.slots, ¬ s.holds key.handle
  · exact .inr absent
  · rw [absent_iff] at absent
    push Not at absent
    obtain ⟨k, v, mem, same⟩ := absent
    obtain rfl := agrees k v mem same
    obtain ⟨i, found⟩ := mem_entries_iff_getElem?.mp mem
    exact .inl ⟨i, v, found⟩

/-- A slot is vacant if not all are used. -/
theorem vacant_mem (room : slots.countP Slot.isUsed < slots.size) : Slot.vacant ∈ slots := by
  by_contra none
  refine absurd (Array.countP_eq_size.mpr fun s mem => ?_) (Nat.ne_of_lt room)
  by_contra unused
  exact none (by simpa [Slot.isUsed_eq_false_iff.mp (by simpa using unused)] using mem)

theorem countP_isLive_le (slots : Array Slot) :
    slots.countP Slot.isLive ≤ slots.countP Slot.isUsed :=
  Array.countP_mono_left fun s _ holds => by cases s <;> simp_all [Slot.isUsed, Slot.isLive]

/-- What keeps probes ending, whatever hashes the keys have: the counter of used slots, which counts
the tombstones too, is not too small, and it leaves a quarter of the slots. -/
structure Roomy (t : Table) : Prop where
  rounded : Rounded t.slots
  used : t.slots.countP Slot.isUsed ≤ t.occupied
  load : t.occupied * 4 ≤ t.capacity * 3

namespace Roomy

theorem vacant_mem (roomy : t.Roomy) (room : 0 < t.slots.size) : Slot.vacant ∈ t.slots := by
  have used := roomy.used
  have load := roomy.load
  rw [capacity] at load
  exact Table.vacant_mem (by omega)

theorem size_pos (roomy : t.Roomy) (used : t.occupied ≠ 0) : 0 < t.slots.size := by
  have load := roomy.load
  rw [capacity] at load
  omega

end Roomy

theorem Lawful.roomy (lawful : t.Lawful) : t.Roomy :=
  ⟨lawful.layout.rounded, Nat.le_of_eq lawful.occupied.symm, lawful.load⟩

theorem Lawful.occupied_ne_zero (lawful : t.Lawful)
    (found : t.slots[i]? = some (.live key value)) : t.occupied ≠ 0 := by
  rw [lawful.occupied, Nat.ne_zero_iff_zero_lt, Array.countP_pos_iff]
  exact ⟨_, Array.mem_of_getElem? found, rfl⟩

/-! ## Looking up -/

/-- A key is looked up by its entry. -/
theorem Lawful.get?_eq_some_iff (lawful : t.Lawful) (agrees : t.Agrees key) :
    t.get? key = some v ↔ (key, v) ∈ t.entries := by
  obtain ⟨i, w, found⟩ | absent := agrees.present_or_absent
  -- A table that counts no slots is not probed; this one is not such.
  · have used := lawful.occupied_ne_zero found
    have : t.get? key = some w := by
      simp [get?, used, lawful.layout.locate?_of_present found, found, Slot.binding?]
    rw [this, mem_entries_iff_getElem?]
    constructor
    · intro eq
      exact ⟨i, by rw [found, Option.some.inj eq]⟩
    · rintro ⟨j, found'⟩
      obtain rfl := lawful.layout.unique i j _ _ _ _ found found' rfl
      simpa using found.symm.trans found'
  · have none : t.get? key = none := by
      unfold get?
      split
      · rfl
      next used =>
        have vacant := lawful.roomy.vacant_mem (lawful.roomy.size_pos used)
        obtain ⟨n, lt, eq, ⟨s, found, dead⟩, -⟩ :=
          lawful.layout.rounded.locate?_of_absent vacant absent
        cases s <;> simp_all [Slot.binding?]
    rw [none]
    simp only [reduceCtorEq, false_iff]
    exact fun mem => absent_iff.mp absent key v mem rfl

theorem Lawful.get?_eq_none_iff (lawful : t.Lawful) (agrees : t.Agrees key) :
    t.get? key = none ↔ ∀ v, (key, v) ∉ t.entries := by
  rw [Option.eq_none_iff_forall_ne_some]
  exact forall_congr' fun v => not_congr (lawful.get?_eq_some_iff agrees)

/-! ## Changing a slot -/

theorem mem_entries_set_iff {occupied tombstones : Nat} {new : Slot} (inside : i < slots.size) :
    (k, v) ∈ entries ⟨occupied, tombstones, slots.setIfInBounds i new⟩ ↔
      new = .live k v ∨ ∃ j : Nat, j ≠ i ∧ slots[j]? = some (.live k v) := by
  simp only [mem_entries_iff_getElem?, Array.getElem?_setIfInBounds, if_pos inside]
  constructor
  · rintro ⟨j, found⟩
    split at found
    next => exact .inl (by simpa using found)
    next other => exact .inr ⟨j, Ne.symm other, found⟩
  · rintro (rfl | ⟨j, other, found⟩)
    · exact ⟨i, by simp⟩
    · exact ⟨j, by rwa [if_neg other.symm]⟩

theorem countP_set (p : Slot → Bool) {old : Slot} (new : Slot) (found : slots[i]? = some old) :
    (slots.setIfInBounds i new).countP p + (if p old then 1 else 0) =
      slots.countP p + (if p new then 1 else 0) := by
  obtain ⟨inside, rfl⟩ := Array.getElem?_eq_some_iff.mp found
  have le : (if p slots[i] then 1 else 0) ≤ slots.countP p := by
    split
    next holds => exact Array.countP_pos_iff.mpr ⟨_, Array.getElem_mem inside, holds⟩
    next => omega
  rw [Array.setIfInBounds_def, dif_pos inside, Array.countP_set]
  omega

/-- Writing into a slot that is not live adds an entry and keeps the others. -/
theorem live_mem_set_iff {old new : Slot} (found : slots[i]? = some old) (dead : ¬ old.isLive) :
    .live k v ∈ slots.setIfInBounds i new ↔ new = .live k v ∨ .live k v ∈ slots := by
  obtain ⟨inside, -⟩ := Array.getElem?_eq_some_iff.mp found
  rw [← mem_entries_iff (t := ⟨0, 0, slots.setIfInBounds i new⟩), mem_entries_set_iff inside,
    Array.mem_iff_getElem?]
  refine or_congr_right ⟨fun ⟨j, _, found'⟩ => ⟨j, found'⟩, fun ⟨j, found'⟩ => ⟨j, ?_, found'⟩⟩
  rintro rfl
  rw [found] at found'
  exact dead (by simp [Option.some.inj found'])

/-- A present key may be written again into its slot. -/
theorem Layout.overwrite (layout : Layout slots) (found : slots[i]? = some (.live key v)) :
    Layout (slots.setIfInBounds i (.live key value)) := by
  obtain ⟨inside, -⟩ := Array.getElem?_eq_some_iff.mp found
  refine layout.set inside (by simp) (fun j k k' v' v'' eq other found' same => ?_)
    fun k v' eq => ?_
  · obtain ⟨rfl, rfl⟩ : key = k ∧ value = v' := by simpa using eq
    exact other (layout.unique _ _ _ _ _ _ found' found same.symm)
  · obtain ⟨rfl, rfl⟩ : key = k ∧ value = v' := by simpa using eq
    exact layout.path i key v found

/-- An absent key may be written into the slot where it is located. -/
theorem Layout.place (layout : Layout slots) (vacant : .vacant ∈ slots)
    (absent : ∀ s ∈ slots, ¬ s.holds key.handle) (value : Value) :
    ∃ i old, locate? slots key = some i ∧ slots[i]? = some old ∧ ¬ old.isLive ∧
      Layout (slots.setIfInBounds i (.live key value)) := by
  obtain ⟨n, lt, eq, ⟨old, found, dead⟩, clear⟩ := layout.rounded.locate?_of_absent vacant absent
  obtain ⟨inside, -⟩ := Array.getElem?_eq_some_iff.mp found
  refine ⟨_, old, eq, found, dead, layout.set inside (by simp)
    (fun j k k' v' v'' eq _ found' same => ?_) fun k v' eq => ?_⟩
  · obtain ⟨rfl, rfl⟩ : key = k ∧ value = v' := by simpa using eq
    exact absent _ (Array.mem_of_getElem? found') (Slot.holds_iff.mpr ⟨k', v'', rfl, same.symm⟩)
  · obtain ⟨rfl, rfl⟩ : key = k ∧ value = v' := by simpa using eq
    refine ⟨n, lt, rfl, fun m below vacant => ?_⟩
    obtain ⟨s, found', live⟩ := clear m below
    rw [vacant] at found'
    obtain rfl := Option.some.inj found'
    simp at live

/-! ## Laying out anew -/

/-- No handle is held by both slots. -/
def Apart (s s' : Slot) : Prop := ∀ h, s.holds h → ¬ s'.holds h

theorem Layout.pairwise_apart (layout : Layout slots) : slots.toList.Pairwise Apart := by
  rw [List.pairwise_iff_getElem]
  intro i j iin jin lt h held held'
  obtain ⟨k, v, eq, rfl⟩ := Slot.holds_iff.mp held
  obtain ⟨k', v', eq', same⟩ := Slot.holds_iff.mp held'
  have found : slots[i]? = some (.live k v) := by
    rw [Array.getElem?_eq_getElem (by simpa using iin), ← eq, Array.getElem_toList]
  have found' : slots[j]? = some (.live k' v') := by
    rw [Array.getElem?_eq_getElem (by simpa using jin), ← eq', Array.getElem_toList]
  exact Nat.ne_of_lt lt (layout.unique _ _ _ _ _ _ found found' same.symm)

/-- What holds while entries are moved into fresh slots: the entries that were moved are the entries
there, and as many slots are used. -/
structure Moved (slots : Array Slot) (done : List Slot) (out : Array Slot) : Prop where
  layout : Layout out
  size : out.size = slots.size
  used : out.countP Slot.isUsed = slots.countP Slot.isUsed + done.countP Slot.isLive
  tombstones : ∀ s ∈ out, ¬ s.isTombstone
  live : ∀ k v, .live k v ∈ out ↔ .live k v ∈ slots ∨ .live k v ∈ done

/-- Moving entries with different handles into slots that have room for all of them. -/
theorem moved_foldl (rest : List Slot) (layout : Layout slots)
    (clean : ∀ s ∈ slots, ¬ s.isTombstone) (apart : rest.Pairwise Apart)
    (apart' : ∀ s ∈ slots, ∀ s' ∈ rest, Apart s s')
    (room : slots.countP Slot.isUsed + rest.countP Slot.isLive < slots.size) :
    Moved slots rest (rest.foldl place slots) := by
  induction rest generalizing slots with
  | nil => exact ⟨layout, rfl, rfl, clean, by simp⟩
  | cons first rest ih =>
    -- A slot that is not live moves nothing.
    have skip (dead : ¬ first.isLive) (eq : place slots first = slots) :
        Moved slots (first :: rest) ((first :: rest).foldl place slots) := by
      have count : (first :: rest).countP Slot.isLive = rest.countP Slot.isLive := by
        simp [dead]
      rw [List.foldl_cons, eq]
      have moved := ih layout clean apart.of_cons
        (fun s mem s' mem' => apart' s mem s' (List.mem_cons_of_mem _ mem')) (by omega)
      refine ⟨moved.layout, moved.size, by rw [count, moved.used], moved.tombstones,
        fun k v => ?_⟩
      rw [moved.live, List.mem_cons]
      have : Slot.live k v ≠ first := fun eq => dead (by simp [← eq, Slot.isLive])
      simp [this]
    cases first with
    | vacant => exact skip (by simp) rfl
    | tombstone => exact skip (by simp) rfl
    | live key value =>
      have absent : ∀ s ∈ slots, ¬ s.holds key.handle := fun s mem held =>
        apart' s mem _ List.mem_cons_self _ held (by simp [Slot.holds])
      have count : ((Slot.live key value) :: rest).countP Slot.isLive =
          rest.countP Slot.isLive + 1 := List.countP_cons_of_pos rfl
      -- There are no tombstones in fresh slots, so the key takes a slot that was never used.
      obtain ⟨i, old, eq, found, dead, layout'⟩ :=
        layout.place (vacant_mem (by omega)) absent value
      have unused : old.isUsed = false := by
        have := clean old (Array.mem_of_getElem? found)
        cases old <;> simp_all [Slot.isTombstone]
      have used : (slots.setIfInBounds i (.live key value)).countP Slot.isUsed =
          slots.countP Slot.isUsed + 1 := by
        have := countP_set Slot.isUsed (.live key value) found
        rwa [unused] at this
      have placed : place slots (.live key value) = slots.setIfInBounds i (.live key value) := by
        simp [place, eq]
      rw [List.foldl_cons, placed]
      -- The other entries differ from the one just moved, as they differ from each other.
      have moved := ih layout' (fun s mem => ?_) apart.of_cons (fun s mem s' mem' => ?_)
        (by rw [used, Array.size_setIfInBounds]; omega)
      · refine ⟨moved.layout, by rw [moved.size, Array.size_setIfInBounds], ?_, moved.tombstones,
          fun k v => ?_⟩
        · rw [moved.used, used, count]
          omega
        · rw [moved.live, live_mem_set_iff found dead, List.mem_cons, eq_comm]
          tauto
      · obtain mem | rfl := Array.mem_or_eq_of_mem_setIfInBounds mem
        · exact clean s mem
        · simp [Slot.isTombstone]
      · obtain mem | rfl := Array.mem_or_eq_of_mem_setIfInBounds mem
        · exact apart' s mem s' (List.mem_cons_of_mem _ mem')
        · exact List.rel_of_pairwise_cons apart mem'

/-- The same keys with the same values. -/
def SameEntries (t t' : Table) : Prop := ∀ k v, (k, v) ∈ t.entries ↔ (k, v) ∈ t'.entries

@[simp] theorem occupied_rehash (t : Table) (n : Nat) :
    (t.rehash n).occupied = t.slots.countP Slot.isLive :=
  Array.countP_congr fun s _ => by cases s <;> simp [Slot.binding?, Slot.isLive]

theorem Lawful.rehash (lawful : t.Lawful) {n : Nat}
    (room : (t.slots.countP Slot.isLive + 1) * 4 ≤ 2 ^ (n + 3) * 3) :
    (t.rehash (2 ^ (n + 3))).Lawful ∧ SameEntries (t.rehash (2 ^ (n + 3))) t ∧
      (t.rehash (2 ^ (n + 3))).occupied = t.slots.countP Slot.isLive ∧
      (t.rehash (2 ^ (n + 3))).capacity = 2 ^ (n + 3) := by
  have vacant : ∀ s ∈ Array.replicate (2 ^ (n + 3)) Slot.vacant, s = .vacant := fun s mem =>
    (Array.mem_replicate.mp mem).2
  have unused : (Array.replicate (2 ^ (n + 3)) Slot.vacant).countP Slot.isUsed = 0 := by
    simp [Array.countP_replicate, Slot.isUsed]
  have live : t.slots.toList.countP Slot.isLive = t.slots.countP Slot.isLive := by simp
  obtain ⟨layout, size, used, tombstones, mem⟩ := moved_foldl t.slots.toList
    (.replicate n) (fun s mem => by simp [vacant s mem, Slot.isTombstone])
    lawful.layout.pairwise_apart
    (fun s mem s' _ h held => by simp [vacant s mem, Slot.holds] at held)
    (by rw [unused, live, Array.size_replicate]; omega)
  rw [Array.foldl_toList] at layout size used tombstones mem
  have counted := occupied_rehash t (2 ^ (n + 3))
  rw [unused, live, Nat.zero_add] at used
  rw [Array.size_replicate] at size
  refine ⟨⟨layout, counted.trans used.symm, ?_, ?_⟩, fun k v => ?_, counted, size⟩
  · exact (Array.countP_eq_zero.mpr tombstones).symm
  · rw [counted]
    simp only [Table.rehash, capacity, size]
    omega
  · rw [mem_entries_iff, mem_entries_iff, Table.rehash, mem]
    simp

/-- There is room for one more key once it is reserved, and nothing else changes. -/
theorem Lawful.reserve (lawful : t.Lawful) :
    t.reserve.Lawful ∧ SameEntries t.reserve t ∧
      (t.reserve.occupied + 1) * 4 ≤ t.reserve.capacity * 3 := by
  have load := lawful.load
  have live : t.slots.countP Slot.isLive ≤ t.occupied := by
    rw [lawful.occupied]
    exact countP_isLive_le t.slots
  rw [Table.reserve]
  split
  next full =>
    -- Capacities are powers of two, and at least eight.
    obtain ⟨n, doubled⟩ := lawful.layout.rounded.doubled
    rw [← capacity] at doubled
    rw [doubled]
    obtain ⟨lawful', same, occupied, capacity'⟩ := lawful.rehash (n := n) (by
      rw [← doubled, leastCapacity]
      omega)
    refine ⟨lawful', same, ?_⟩
    rw [occupied, capacity', ← doubled, leastCapacity]
    omega
  next room => exact ⟨lawful, fun _ _ => Iff.rfl, by omega⟩

/-! ## Inserting -/

theorem SameEntries.agrees {t' : Table} (same : SameEntries t' t) (agrees : t.Agrees key) :
    t'.Agrees key := fun k v mem => agrees k v ((same k v).mp mem)

/-- What inserting a key gives: whether it is new, and the table with it. -/
structure Inserts (t : Table) (key : Key) (value : Value) (answer : Bool × Table) : Prop where
  lawful : answer.2.Lawful
  mem : ∀ k v, (k, v) ∈ answer.2.entries ↔
    k = key ∧ v = value ∨ k.handle ≠ key.handle ∧ (k, v) ∈ t.entries
  new : answer.1 ↔ ∀ v, (key, v) ∉ t.entries

/-- Writing a present key again. -/
private theorem Lawful.inserts_present (lawful : t.Lawful)
    (found : t.slots[i]? = some (.live key v)) :
    Inserts t key value (false, { t with slots := t.slots.setIfInBounds i (.live key value) }) := by
  obtain ⟨inside, -⟩ := Array.getElem?_eq_some_iff.mp found
  have used := countP_set Slot.isUsed (.live key value) found
  have tombstones := countP_set Slot.isTombstone (.live key value) found
  simp only [Slot.isUsed, Slot.isTombstone, Nat.add_right_cancel_iff] at used tombstones
  refine ⟨⟨lawful.layout.overwrite found, lawful.occupied.trans used.symm,
    lawful.tombstones.trans tombstones.symm, ?_⟩, fun k w => ?_, ?_⟩
  · simpa [capacity] using lawful.load
  · rw [mem_entries_set_iff inside, mem_entries_iff_getElem?]
    refine or_congr (by simp [eq_comm]) ⟨?_, ?_⟩
    -- The handle lies in no other slot.
    · rintro ⟨j, other, found'⟩
      exact ⟨fun same => other (lawful.layout.unique _ _ _ _ _ _ found' found same), j, found'⟩
    · rintro ⟨other, j, found'⟩
      refine ⟨j, ?_, found'⟩
      rintro rfl
      rw [found] at found'
      exact other (by simp_all)
  · simp only [Bool.false_eq_true, false_iff, not_forall, not_not]
    exact ⟨v, mem_entries_iff_getElem?.mpr ⟨i, found⟩⟩

/-- Inserting a key where there is room for it. -/
private theorem Lawful.inserts_absent (lawful : t.Lawful)
    (absent : ∀ s ∈ t.slots, ¬ s.holds key.handle)
    {occupied tombstones : Nat} {old : Slot} (found : t.slots[i]? = some old)
    (dead : ¬ old.isLive) (layout : Layout (t.slots.setIfInBounds i (.live key value)))
    (used : occupied + (if old.isUsed then 1 else 0) = t.occupied + 1)
    (left : tombstones + (if old.isTombstone then 1 else 0) = t.tombstones)
    (room : occupied * 4 ≤ t.capacity * 3) :
    Inserts t key value
      (true, ⟨occupied, tombstones, t.slots.setIfInBounds i (.live key value)⟩) := by
  have used' := countP_set Slot.isUsed (.live key value) found
  have left' := countP_set Slot.isTombstone (.live key value) found
  simp only [Slot.isUsed_live, if_true] at used'
  simp only [Slot.isTombstone_live, Bool.false_eq_true, if_false] at left'
  have absent' := absent_iff.mp absent
  refine ⟨⟨layout, ?_, ?_, by simpa [capacity] using room⟩, fun k w => ?_, ?_⟩
  · have := lawful.occupied
    simp only
    omega
  · have := lawful.tombstones
    simp only
    omega
  · rw [mem_entries_iff, live_mem_set_iff found dead, ← mem_entries_iff]
    refine or_congr (by simp [eq_comm]) ⟨fun mem => ⟨absent' k w mem, mem⟩, And.right⟩
  · simp only [true_iff]
    exact fun w mem => absent' key w mem rfl

theorem Lawful.inserts (lawful : t.Lawful) (agrees : t.Agrees key) :
    Inserts t key value (t.insert key value) := by
  obtain ⟨lawful', same, room⟩ := lawful.reserve
  -- Reserving room keeps the entries, so it is enough to insert into the table with room.
  have transfer {answer : Bool × Table} (inserts : Inserts t.reserve key value answer) :
      Inserts t key value answer := by
    refine ⟨inserts.lawful, fun k v => ?_, ?_⟩
    · rw [inserts.mem, same]
    · rw [inserts.new]
      exact forall_congr' fun v => not_congr (same key v)
  apply transfer
  obtain ⟨i, v, found⟩ | absent := (same.agrees agrees).present_or_absent
  · simpa only [insert, lawful'.layout.locate?_of_present found, found] using
      lawful'.inserts_present found
  · have size : 0 < t.reserve.slots.size := by
      rw [← capacity]
      omega
    obtain ⟨i, old, eq, found, dead, layout⟩ :=
      lawful'.layout.place (lawful'.roomy.vacant_mem size) absent value
    cases old with
    | vacant =>
      simpa only [insert, eq, found] using
        lawful'.inserts_absent absent found dead layout rfl rfl room
    -- Taking the place of a tombstone uses no further slot.
    | tombstone v used =>
      have tombstone : (Slot.keyless v).isTombstone := bne_iff_ne.mpr used
      have : 0 < t.reserve.tombstones := by
        rw [lawful'.tombstones]
        exact Array.countP_pos_iff.mpr ⟨_, Array.mem_of_getElem? found, tombstone⟩
      have left : t.reserve.tombstones - 1 + (if (Slot.keyless v).isTombstone then 1 else 0) =
          t.reserve.tombstones := by
        rw [if_pos tombstone]
        exact Nat.sub_add_cancel this
      have counted : t.reserve.occupied + (if (Slot.keyless v).isUsed then 1 else 0) =
          t.reserve.occupied + 1 := by
        rw [if_pos (show (Slot.keyless v).isUsed from tombstone)]
      simpa only [insert, eq, found] using
        lawful'.inserts_absent absent found dead layout counted left (by omega)
    | live key value => simp at dead

theorem Lawful.insert (lawful : t.Lawful) (agrees : t.Agrees key) :
    (t.insert key value).2.Lawful := (lawful.inserts agrees).lawful

/-- Inserting sets one key and keeps the others. -/
theorem Lawful.mem_entries_insert_iff (lawful : t.Lawful) (agrees : t.Agrees key) :
    (k, v) ∈ (t.insert key value).2.entries ↔
      k = key ∧ v = value ∨ k.handle ≠ key.handle ∧ (k, v) ∈ t.entries :=
  (lawful.inserts agrees).mem k v

/-- Inserting tells whether the key is new. -/
theorem Lawful.insert_fst_iff (lawful : t.Lawful) (agrees : t.Agrees key) :
    (t.insert key value).1 ↔ ∀ v, (key, v) ∉ t.entries := (lawful.inserts agrees).new

/-! ## Erasing -/

/-- What erasing a key gives: whether it was there, and the table without it. -/
structure Erases (t : Table) (key : Key) (answer : Bool × Table) : Prop where
  lawful : answer.2.Lawful
  mem : ∀ k v, (k, v) ∈ answer.2.entries ↔ k.handle ≠ key.handle ∧ (k, v) ∈ t.entries
  found : answer.1 ↔ ∃ v, (key, v) ∈ t.entries

/-- Erasing an absent key changes nothing. -/
private theorem Lawful.erases_absent (lawful : t.Lawful)
    (absent : ∀ s ∈ t.slots, ¬ s.holds key.handle) : Erases t key (false, t) := by
  have absent' := absent_iff.mp absent
  refine ⟨lawful, fun k v => ⟨fun mem => ⟨absent' k v mem, mem⟩, And.right⟩, ?_⟩
  simp only [Bool.false_eq_true, false_iff, not_exists]
  exact fun v mem => absent' key v mem rfl

/-- A present key leaves a tombstone. -/
private theorem Lawful.erases_present (lawful : t.Lawful)
    (found : t.slots[i]? = some (.live key v)) :
    Erases t key (true, { t with
      tombstones := t.tombstones + 1, slots := t.slots.setIfInBounds i .tombstone }) := by
  obtain ⟨inside, -⟩ := Array.getElem?_eq_some_iff.mp found
  have used := countP_set Slot.isUsed .tombstone found
  have left := countP_set Slot.isTombstone .tombstone found
  simp only [Slot.isUsed_live, Slot.isUsed_tombstone, Nat.add_right_cancel_iff] at used
  simp only [Slot.isTombstone_live, Slot.isTombstone_tombstone, Bool.false_eq_true, if_false,
    if_true, Nat.add_zero] at left
  refine ⟨⟨lawful.layout.set inside (by simp) (by simp) (by simp),
    lawful.occupied.trans used.symm, ?_, ?_⟩, fun k w => ?_, ?_⟩
  · rw [left, lawful.tombstones]
  · simpa [capacity] using lawful.load
  · rw [mem_entries_set_iff inside, mem_entries_iff_getElem?]
    simp only [reduceCtorEq, false_or]
    constructor
    · rintro ⟨j, other, found'⟩
      exact ⟨fun same => other (lawful.layout.unique _ _ _ _ _ _ found' found same), j, found'⟩
    · rintro ⟨other, j, found'⟩
      refine ⟨j, ?_, found'⟩
      rintro rfl
      rw [found] at found'
      exact other (by simp_all)
  · simp only [true_iff]
    exact ⟨v, mem_entries_iff_getElem?.mpr ⟨i, found⟩⟩

theorem Lawful.erases (lawful : t.Lawful) (agrees : t.Agrees key) :
    Erases t key (t.erase key) := by
  obtain ⟨i, v, found⟩ | absent := agrees.present_or_absent
  · have used := lawful.occupied_ne_zero found
    simpa only [erase, if_neg used, lawful.layout.locate?_of_present found, found] using
      lawful.erases_present found
  · rw [erase]
    split
    · exact lawful.erases_absent absent
    next used =>
      have vacant := lawful.roomy.vacant_mem (lawful.roomy.size_pos used)
      obtain ⟨n, -, eq, ⟨s, found, dead⟩, -⟩ :=
        lawful.layout.rounded.locate?_of_absent vacant absent
      simp only [eq, found]
      cases s with
      | vacant => exact lawful.erases_absent absent
      | tombstone => exact lawful.erases_absent absent
      | live key value => simp at dead

theorem Lawful.erase (lawful : t.Lawful) (agrees : t.Agrees key) : (t.erase key).2.Lawful :=
  (lawful.erases agrees).lawful

/-- Erasing removes one key and keeps the others. -/
theorem Lawful.mem_entries_erase_iff (lawful : t.Lawful) (agrees : t.Agrees key) :
    (k, v) ∈ (t.erase key).2.entries ↔ k.handle ≠ key.handle ∧ (k, v) ∈ t.entries :=
  (lawful.erases agrees).mem k v

/-- Erasing some keys keeps the others. -/
theorem mem_entries_eraseUnless_iff {keep : Handle → Bool} :
    (k, v) ∈ (t.eraseUnless keep).2.entries ↔ (k, v) ∈ t.entries ∧ keep k.handle := by
  simp only [mem_entries_iff, eraseUnless, Array.mem_map]
  constructor
  · rintro ⟨s, mem, eq⟩
    split at eq
    next => cases eq
    next kept =>
      obtain rfl := eq
      exact ⟨mem, by simpa [isDropped] using kept⟩
  · rintro ⟨mem, kept⟩
    exact ⟨_, mem, by simp [isDropped, kept]⟩

private theorem countP_dropped (keep : Handle → Bool) (slots : List Slot) :
    (slots.map fun s => if isDropped keep s then .tombstone else s).countP Slot.isTombstone =
      slots.countP Slot.isTombstone + slots.countP (isDropped keep) := by
  induction slots with
  | nil => rfl
  | cons s slots ih =>
    rw [List.map_cons, List.countP_cons, List.countP_cons, List.countP_cons, ih]
    have : (if (if isDropped keep s then Slot.tombstone else s).isTombstone then 1 else 0) =
        (if s.isTombstone then 1 else 0) + (if isDropped keep s then 1 else 0) := by
      split
      next dropped => cases s <;> simp_all [isDropped, Slot.isTombstone]
      next kept => rfl
    omega

/-- What is not kept leaves its slot used. -/
theorem countP_isUsed_eraseUnless (t : Table) (keep : Handle → Bool) :
    (t.eraseUnless keep).2.slots.countP Slot.isUsed = t.slots.countP Slot.isUsed := by
  rw [eraseUnless, Array.countP_map]
  apply Array.countP_congr
  intro s _
  rw [Function.comp]
  split
  next dropped => cases s <;> simp [isDropped, Slot.isUsed] at dropped ⊢
  next => rfl

theorem Lawful.eraseUnless (lawful : t.Lawful) (keep : Handle → Bool) :
    (t.eraseUnless keep).2.Lawful := by
  refine ⟨lawful.layout.map fun s => ?_, ?_, ?_, ?_⟩
  · split
    · exact .inr rfl
    · exact .inl rfl
  · exact lawful.occupied.trans (countP_isUsed_eraseUnless t keep).symm
  · rw [Table.eraseUnless, lawful.tombstones, ← Array.countP_toList, ← Array.countP_toList,
      ← Array.countP_toList, Array.toList_map]
    exact (countP_dropped keep _).symm
  · simpa [capacity, Table.eraseUnless] using lawful.load

/-! ## Inserting many -/

/-- Inserting entries of different keys sets all of them and keeps the other keys. -/
theorem Lawful.insertAll (lawful : t.Lawful) {rest : List (Key × Value)}
    (apart : rest.Pairwise fun e e' => e.1.handle ≠ e'.1.handle)
    (agrees : ∀ e ∈ rest, t.Agrees e.1) :
    (t.insertAll rest).Lawful ∧ ∀ k v, (k, v) ∈ (t.insertAll rest).entries ↔
      (k, v) ∈ rest ∨ (k, v) ∈ t.entries ∧ ∀ w, (k, w) ∉ rest := by
  induction rest generalizing t with
  | nil => exact ⟨lawful, by simp [Table.insertAll]⟩
  | cons e rest ih =>
    obtain ⟨key, value⟩ := e
    have here := agrees _ List.mem_cons_self
    rw [List.pairwise_cons] at apart
    -- The first entry bears another handle than the later ones, so these still agree with the
    -- table that has it.
    obtain ⟨lawful', mem⟩ := ih (t := (t.insert key value).2) (lawful.insert here) apart.2
      fun e' mem' k v inserted same => by
        rw [lawful.mem_entries_insert_iff here] at inserted
        obtain ⟨rfl, rfl⟩ | ⟨-, old⟩ := inserted
        · exact absurd same (apart.1 e' mem')
        · exact agrees e' (List.mem_cons_of_mem _ mem') k v old same
    refine ⟨lawful', fun k v => ?_⟩
    rw [Table.insertAll, List.foldl_cons]
    apply (mem k v).trans
    rw [lawful.mem_entries_insert_iff here]
    simp only [List.mem_cons, Prod.mk.injEq, not_or]
    constructor
    · rintro (later | ⟨⟨rfl, rfl⟩ | ⟨other, old⟩, none⟩)
      · exact .inl (.inr later)
      · exact .inl (.inl ⟨rfl, rfl⟩)
      · exact .inr ⟨old, fun w => ⟨fun eq => other (by rw [eq.1]), none w⟩⟩
    · rintro ((⟨rfl, rfl⟩ | later) | ⟨old, none⟩)
      · exact .inr ⟨.inl ⟨rfl, rfl⟩, fun w mem => apart.1 _ mem rfl⟩
      · exact .inl later
      · refine .inr ⟨.inr ⟨fun same => ?_, old⟩, fun w => (none w).2⟩
        exact (none value).1 ⟨here k v old same, rfl⟩

theorem Lawful.pairwise_entries (lawful : t.Lawful) :
    t.entries.Pairwise fun e e' => e.1.handle ≠ e'.1.handle := by
  refine List.Pairwise.filterMap _ (fun s s' apart e binds e' binds' same => ?_)
    lawful.layout.pairwise_apart
  -- What a slot binds, it holds.
  have held {s : Slot} {e : Key × Value} (binds : s.binding? = some e) : s.holds e.1.handle := by
    cases s <;> simp only [Slot.binding?, reduceCtorEq, Option.some.injEq] at binds
    obtain rfl := binds
    exact Slot.holds_iff.mpr ⟨_, _, rfl, rfl⟩
  exact apart e.1.handle (held binds) (same ▸ held binds')

/-- Copying a table sets its keys and keeps the others. -/
theorem Lawful.addAll {source : Table} (lawful : t.Lawful) (lawful' : source.Lawful)
    (agrees : ∀ e ∈ source.entries, t.Agrees e.1) :
    (t.addAll source).Lawful ∧ ∀ k v, (k, v) ∈ (t.addAll source).entries ↔
      (k, v) ∈ source.entries ∨ (k, v) ∈ t.entries ∧ ∀ w, (k, w) ∉ source.entries :=
  lawful.insertAll lawful'.pairwise_entries agrees

/-! ## Counting entries -/

/-- A table counts its entries. -/
theorem Lawful.size_eq (lawful : t.Lawful) : t.size = t.entries.length := by
  have split : t.slots.toList.countP Slot.isUsed =
      t.slots.toList.countP Slot.isTombstone + t.slots.toList.countP (·.binding?.isSome) := by
    induction t.slots.toList with
    | nil => rfl
    | cons s slots ih =>
      rw [List.countP_cons, List.countP_cons, List.countP_cons, ih]
      have : (if s.isUsed then 1 else 0) =
          (if s.isTombstone then 1 else 0) + (if s.binding?.isSome then 1 else 0) := by
        cases s <;> rfl
      omega
  rw [size, lawful.occupied, lawful.tombstones, entries, List.length_filterMap_eq_countP,
    ← Array.countP_toList, ← Array.countP_toList, split, Nat.add_sub_cancel_left]

/-- Keeping some keys tells how many others there were. -/
theorem eraseUnless_fst (t : Table) (keep : Handle → Bool) :
    (t.eraseUnless keep).1 = t.entries.countP (!keep ·.1.handle) := by
  rw [eraseUnless, entries, List.countP_filterMap, ← Array.countP_toList]
  refine List.countP_congr fun s _ => ?_
  cases s <;> simp [isDropped, Slot.binding?]

theorem Lawful.nodup_handles (lawful : t.Lawful) : (t.entries.map (·.1.handle)).Nodup :=
  List.pairwise_map.mpr lawful.pairwise_entries

/-- Entries are counted as their handles are. -/
theorem Lawful.ncard_handles (lawful : t.Lawful) (p : Handle → Bool) :
    {h | (∃ e ∈ t.entries, e.1.handle = h) ∧ p h}.ncard = t.entries.countP (p ·.1.handle) := by
  have nodup : ((t.entries.filter (p ·.1.handle)).map (·.1.handle)).Nodup :=
    lawful.nodup_handles.sublist (List.filter_sublist.map _)
  have same : {h | (∃ e ∈ t.entries, e.1.handle = h) ∧ p h} =
      ↑((t.entries.filter (p ·.1.handle)).map (·.1.handle)).toFinset := by
    ext h
    simp only [Set.mem_ofPred_eq, List.coe_toFinset, List.mem_map, List.mem_filter]
    constructor
    · rintro ⟨⟨e, mem, rfl⟩, holds⟩
      exact ⟨e, ⟨mem, holds⟩, rfl⟩
    · rintro ⟨e, ⟨mem, holds⟩, rfl⟩
      exact ⟨⟨e, mem, rfl⟩, holds⟩
  rw [same, Set.ncard_coe_finset, List.toFinset_card_of_nodup nodup, List.length_map,
    List.countP_eq_length_filter]

/-! ## Searches end -/

/-- Every search for the key comes to a slot: in the table as it is, if it uses any slot, and in the
table with room for one more key. No entry gets lost when room is made, as one would whose search
did not end. Where an insertion takes the place of a tombstone, at least one is counted. -/
structure Searchable (t : Table) (key : Key) : Prop where
  located : t.occupied ≠ 0 → ∃ i, locate? t.slots key = some i
  kept : SameEntries t.reserve t
  reserved : ∃ i, locate? t.reserve.slots key = some i
  counted : ∀ s ∈ t.reserve.slots, s.isTombstone → 0 < t.reserve.tombstones

/-- The search for a key ends in any table that has slots. -/
theorem Lawful.exists_locate? (lawful : t.Lawful) (agrees : t.Agrees key)
    (room : 0 < t.slots.size) : ∃ i < t.slots.size, locate? t.slots key = some i := by
  obtain ⟨i, v, found⟩ | absent := agrees.present_or_absent
  · obtain ⟨inside, -⟩ := Array.getElem?_eq_some_iff.mp found
    exact ⟨i, inside, lawful.layout.locate?_of_present found⟩
  · obtain ⟨n, -, eq, -⟩ :=
      lawful.layout.rounded.locate?_of_absent (lawful.roomy.vacant_mem room) absent
    exact ⟨_, stop_lt room key.hash n, eq⟩

theorem Lawful.searchable (lawful : t.Lawful) (agrees : t.Agrees key) : t.Searchable key := by
  obtain ⟨lawful', same, room⟩ := lawful.reserve
  have room' : 0 < t.reserve.slots.size := by
    rw [← capacity]
    omega
  obtain ⟨i, -, eq⟩ := lawful'.exists_locate? (same.agrees agrees) room'
  refine ⟨fun used => ?_, same, ⟨i, eq⟩, fun s mem tombstone => ?_⟩
  · obtain ⟨i, -, eq⟩ := lawful.exists_locate? agrees (lawful.roomy.size_pos used)
    exact ⟨i, eq⟩
  · rw [lawful'.tombstones]
    exact Array.countP_pos_iff.mpr ⟨s, mem, tombstone⟩

/-! ## Looking for a text -/

variable {text : String} {hash : UInt64} {resolve : Handle → Option String}

/-- The search for a text, if there is anything to search, comes to a key for it or to a vacant
slot. -/
def TextSearchable (t : Table) (text : String) (hash : UInt64)
    (resolve : Handle → Option String) : Prop :=
  t.occupied ≠ 0 →
    ∃ found, probeText t.slots text hash resolve t.slots.size (home t.slots hash) = some found

theorem Roomy.textSearchable (roomy : t.Roomy) (text : String) (hash : UInt64)
    (resolve : Handle → Option String) : t.TextSearchable text hash resolve := by
  intro used
  have room := roomy.size_pos used
  obtain ⟨i, lt, at_⟩ := Array.mem_iff_getElem.mp (roomy.vacant_mem room)
  obtain ⟨d, dlt, rfl⟩ := exists_stop hash lt
  have vacant : t.slots[stop t.slots hash (0 + d)]? = some .vacant := by
    rw [Nat.zero_add, Array.getElem?_eq_getElem lt, at_]
  rw [roomy.rounded.home_eq room]
  exact roomy.rounded.exists_probeText vacant dlt

theorem Lawful.textSearchable (lawful : t.Lawful) (text : String) (hash : UInt64)
    (resolve : Handle → Option String) : t.TextSearchable text hash resolve :=
  lawful.roomy.textSearchable text hash resolve

/-- A key that is found for a text is a key of the table that stands for it. -/
theorem mem_of_findText?_eq_some (found : t.findText? text hash resolve = some key) :
    key.hash = hash ∧ resolve key.handle = some text ∧ ∃ v, (key, v) ∈ t.entries := by
  rw [findText?] at found
  split at found
  · cases found
  · obtain ⟨same, resolved, i, v, at_⟩ := probeText_sound (Option.join_eq_some_iff.mp found)
    exact ⟨same, resolved, v, mem_entries_iff_getElem?.mpr ⟨i, at_⟩⟩

/-- Some key is found for a text if the table has one that stands for it. -/
theorem Lawful.exists_findText? (lawful : t.Lawful) (mem : (key, v) ∈ t.entries)
    (same : key.hash = hash) (resolved : resolve key.handle = some text) :
    ∃ k, t.findText? text hash resolve = some k := by
  obtain ⟨i, found⟩ := mem_entries_iff_getElem?.mp mem
  obtain ⟨n, lt, rfl, clear⟩ := lawful.layout.path i key v found
  have used := lawful.occupied_ne_zero found
  rw [same, ← Nat.zero_add n] at found
  obtain ⟨k, eq⟩ := lawful.layout.probeText_of_present found lt same resolved fun m below => by
    rw [Nat.zero_add, ← same]
    exact clear m below
  refine ⟨k, ?_⟩
  rw [findText?, if_neg used, lawful.layout.rounded.home_eq (Nat.zero_lt_of_lt lt), eq]
  rfl

end Table

end ScriptMachine
