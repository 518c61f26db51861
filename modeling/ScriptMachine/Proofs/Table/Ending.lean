/-
# Probes end

A probe has no counter. It goes around the slots until it meets its key or a slot that was never
used, so it ends because there always is such a slot. Tombstones are counted as used slots when a
key is erased, when keys are dropped, and when a tombstone is used again; a table that counts no
used slot is not probed; and a table grows before it is probed for the key to set. Nothing of this
depends on the hashes. Keys may even come with another hash each time: then a handle may lie in two
slots and a key that is present may be missed, but the probe ends.

The probes here are not bounded. `Table.probe` and `Table.probeText` are, and their bounds are never
met.

## Main definitions

* `Table.Walks`, `Table.WalksText` — probes as they go on, with the number of slots they look at
* `Table.Made` — the tables that operations make
* `Table.Searches` — where operations on a table search for keys
* `Table.BelongsIn` — the slot for an absent key

## Main results

* `probe_eq_some_iff`, `probeText_eq_some_iff` — a bounded probe answers what the unbounded one does
* `Roomy.reserve`, `Roomy.insert`, `Roomy.erase`, `Roomy.eraseUnless` — a quarter of the slots stays
  free
* `Made.probes_end` — all probes end
-/

import ScriptMachine.Proofs.Table.Searching

namespace ScriptMachine

namespace Table

/-- A probe for a handle from a slot, with the tombstone that it keeps in mind. It looks at this
many slots, the first one included, and gives this answer. -/
inductive Walks (slots : Array Slot) (h : Handle) :
    (index : Nat) → (spare : Option Nat) → (looks answer : Nat) → Prop
  | vacant {index : Nat} {spare : Option Nat} : slots[index]? = some .vacant →
      Walks slots h index spare 1 (spare.getD index)
  | found {index : Nat} {spare : Option Nat} {key : Key} {value : Value} :
      slots[index]? = some (.live key value) → key.handle = h →
      Walks slots h index spare 1 index
  | tombstone {index looks answer : Nat} {spare : Option Nat} {value : Value} :
      slots[index]? = some (.keyless value) → value ≠ .nil →
      Walks slots h (next slots index) (spare.or (some index)) looks answer →
      Walks slots h index spare (looks + 1) answer
  | other {index looks answer : Nat} {spare : Option Nat} {key : Key} {value : Value} :
      slots[index]? = some (.live key value) → key.handle ≠ h →
      Walks slots h (next slots index) spare looks answer →
      Walks slots h index spare (looks + 1) answer

/-- A probe for a text from a slot. It looks at this many slots and gives this answer. -/
inductive WalksText (slots : Array Slot) (text : String) (hash : UInt64)
    (resolve : Handle → Option String) : (index looks : Nat) → (answer : Option Key) → Prop
  | vacant {index : Nat} : slots[index]? = some .vacant →
      WalksText slots text hash resolve index 1 none
  | found {index : Nat} {key : Key} {value : Value} : slots[index]? = some (.live key value) →
      key.hash = hash ∧ resolve key.handle = some text →
      WalksText slots text hash resolve index 1 (some key)
  | tombstone {index looks : Nat} {answer : Option Key} {value : Value} :
      slots[index]? = some (.keyless value) → value ≠ .nil →
      WalksText slots text hash resolve (next slots index) looks answer →
      WalksText slots text hash resolve index (looks + 1) answer
  | other {index looks : Nat} {answer : Option Key} {key : Key} {value : Value} :
      slots[index]? = some (.live key value) →
      ¬ (key.hash = hash ∧ resolve key.handle = some text) →
      WalksText slots text hash resolve (next slots index) looks answer →
      WalksText slots text hash resolve index (looks + 1) answer

/-- The tables that operations make of the empty one, whatever keys they are given. A copy of a
table is the same table. -/
inductive Made : Table → Prop
  | empty : Made empty
  | insert {t : Table} (key : Key) (value : Value) : Made t → Made (t.insert key value).2
  | erase {t : Table} (key : Key) : Made t → Made (t.erase key).2
  | addAll {t source : Table} : Made t → Made source → Made (t.addAll source)
  | eraseUnless {t : Table} (keep : Handle → Bool) : Made t → Made (t.eraseUnless keep).2

/-- The slots of a table that grows, when these of its slots have been moved. -/
def moving (t : Table) (moved : List Slot) : Array Slot :=
  moved.foldl place (Array.replicate (max (t.capacity * 2) leastCapacity) .vacant)

/-- Where operations on a table search for a key. -/
inductive Searches (t : Table) : Array Slot → Key → Prop
  /-- Looking up and erasing search the table, if any slot is used. -/
  | find (key : Key) : t.occupied ≠ 0 → Searches t t.slots key
  /-- Setting searches the table with room for one more key. -/
  | insert (key : Key) : Searches t t.reserve.slots key
  /-- Making room searches the new slots for each key, when the slots before it have been moved. -/
  | move {key : Key} {value : Value} (moved later : List Slot) :
      t.capacity * 3 < (t.occupied + 1) * 4 →
      t.slots.toList = moved ++ .live key value :: later → Searches t (t.moving moved) key

/-- The slot that a probe for the hash looks at after this many others. -/
def look (slots : Array Slot) (hash : UInt64) (n : Nat) : Nat :=
  (next slots)^[n] (home slots hash)

/-- A probe for the hash comes to such a slot here for the first time. -/
def First (slots : Array Slot) (hash : UInt64) (p : Slot → Prop) (n : Nat) : Prop :=
  (∃ s, slots[look slots hash n]? = some s ∧ p s) ∧
    ∀ m < n, ∀ s, slots[look slots hash m]? = some s → ¬ p s

/-- The slot for an absent key with this hash: the first tombstone, if a probe comes to one before
the first slot that was never used, and otherwise that slot. -/
def BelongsIn (slots : Array Slot) (hash : UInt64) (i : Nat) : Prop :=
  ∃ n < slots.size, First slots hash (· = .vacant) n ∧
    ((∃ m < n, First slots hash (·.isTombstone) m ∧ i = look slots hash m) ∨
      (∀ m < n, ∀ s, slots[look slots hash m]? = some s → ¬ s.isTombstone) ∧
        i = look slots hash n)

/-- A probe for the key ends: there are slots, and it has looked at no more than there are when it
answers one of them. An absent key belongs in the slot where it is located. -/
structure Ends (slots : Array Slot) (key : Key) : Prop where
  room : slots.size ≠ 0
  walks : ∃ looks ≤ slots.size, ∃ i < slots.size,
    Walks slots key.handle (home slots key.hash) none looks i ∧ probe? slots key = some i
  absent : (∀ s ∈ slots, ¬ s.holds key.handle) →
    ∃ i, locate? slots key = some i ∧ BelongsIn slots key.hash i

/-! ## Bounded and unbounded probes -/

variable {slots : Array Slot} {h : Handle} {key : Key} {value : Value} {t source : Table}
  {text : String} {hash : UInt64} {resolve : Handle → Option String}
  {index looks bound i : Nat} {spare : Option Nat}

/-- A probe with a bound gives the answer of the probe without one if that looks at no more
slots. -/
theorem probe_eq_some_iff :
    probe slots h bound index spare = some i ↔
      ∃ looks ≤ bound, Walks slots h index spare looks i := by
  constructor
  · intro eq
    induction bound generalizing index spare with
    | zero => simp [probe] at eq
    | succ bound ih =>
      rw [probe] at eq
      split at eq
      · cases eq
      next vacant =>
        obtain rfl := Option.some.inj eq
        exact ⟨1, by omega, .vacant vacant⟩
      next value used tombstone =>
        obtain ⟨looks, le, walks⟩ := ih eq
        exact ⟨looks + 1, by omega, .tombstone tombstone used walks⟩
      next key value found =>
        split at eq
        next same =>
          obtain rfl := Option.some.inj eq
          exact ⟨1, by omega, .found found same⟩
        next other =>
          obtain ⟨looks, le, walks⟩ := ih eq
          exact ⟨looks + 1, by omega, .other found other walks⟩
  · rintro ⟨looks, le, walks⟩
    induction walks generalizing bound with
    | vacant at_ =>
      obtain ⟨bound, rfl⟩ := Nat.exists_eq_add_of_le' le
      simp [probe, at_]
    | found at_ same =>
      obtain ⟨bound, rfl⟩ := Nat.exists_eq_add_of_le' le
      simp [probe, at_, same]
    | tombstone at_ used _ ih =>
      obtain ⟨bound, rfl⟩ := Nat.exists_eq_add_of_le' (Nat.le_of_add_left_le le)
      simpa [probe, at_, used] using ih (by omega)
    | other at_ other _ ih =>
      obtain ⟨bound, rfl⟩ := Nat.exists_eq_add_of_le' (Nat.le_of_add_left_le le)
      simpa [probe, at_, other] using ih (by omega)

/-- The same for texts. -/
theorem probeText_eq_some_iff {answer : Option Key} :
    probeText slots text hash resolve bound index = some answer ↔
      ∃ looks ≤ bound, WalksText slots text hash resolve index looks answer := by
  constructor
  · intro eq
    induction bound generalizing index with
    | zero => simp [probeText] at eq
    | succ bound ih =>
      rw [probeText] at eq
      split at eq
      · cases eq
      next vacant =>
        obtain rfl := Option.some.inj eq
        exact ⟨1, by omega, .vacant vacant⟩
      next value used tombstone =>
        obtain ⟨looks, le, walks⟩ := ih eq
        exact ⟨looks + 1, by omega, .tombstone tombstone used walks⟩
      next key value found =>
        split at eq
        next same =>
          obtain rfl := Option.some.inj eq
          exact ⟨1, by omega, .found found same⟩
        next other =>
          obtain ⟨looks, le, walks⟩ := ih eq
          exact ⟨looks + 1, by omega, .other found other walks⟩
  · rintro ⟨looks, le, walks⟩
    induction walks generalizing bound with
    | vacant at_ =>
      obtain ⟨bound, rfl⟩ := Nat.exists_eq_add_of_le' le
      simp [probeText, at_]
    | found at_ same =>
      obtain ⟨bound, rfl⟩ := Nat.exists_eq_add_of_le' le
      simp [probeText, at_, same]
    | tombstone at_ used _ ih =>
      obtain ⟨bound, rfl⟩ := Nat.exists_eq_add_of_le' (Nat.le_of_add_left_le le)
      simpa [probeText, at_, used] using ih (by omega)
    | other at_ other _ ih =>
      obtain ⟨bound, rfl⟩ := Nat.exists_eq_add_of_le' (Nat.le_of_add_left_le le)
      simpa [probeText, at_, other] using ih (by omega)

/-- What a probe answers is a slot. -/
theorem Walks.answer_lt (walks : Walks slots h index spare looks i)
    (inside : ∀ j, spare = some j → j < slots.size) : i < slots.size := by
  have lt {j : Nat} {s : Slot} (at_ : slots[j]? = some s) : j < slots.size :=
    (Array.getElem?_eq_some_iff.mp at_).1
  induction walks with
  | vacant at_ =>
    rename_i spare
    cases spare with
    | none => exact lt at_
    | some j => exact inside j rfl
  | found at_ => exact lt at_
  | tombstone at_ _ _ ih =>
    refine ih fun j eq => ?_
    obtain kept | ⟨-, here⟩ := Option.or_eq_some_iff.mp eq
    · exact inside j kept
    · obtain rfl := Option.some.inj here
      exact lt at_
  | other _ _ _ ih => exact ih inside

/-! ## A quarter of the slots was never used -/

theorem countP_set_le (p : Slot → Bool) (slots : Array Slot) (i : Nat) (new : Slot) :
    (slots.setIfInBounds i new).countP p ≤ slots.countP p + (if p new then 1 else 0) := by
  cases found : slots[i]? with
  | none =>
    rw [Array.setIfInBounds_eq_of_size_le (Array.getElem?_eq_none_iff.mp found)]
    omega
  | some old =>
    have := countP_set p new found
    omega

/-- Moving an entry takes one slot at most. -/
theorem countP_isUsed_place_le (slots : Array Slot) (s : Slot) :
    (place slots s).countP Slot.isUsed ≤
      slots.countP Slot.isUsed + (if s.isLive then 1 else 0) := by
  cases s with
  | vacant | tombstone => exact Nat.le_add_right _ _
  | live key value =>
    simp only [place]
    split
    · exact countP_set_le _ _ _ _
    · exact Nat.le_add_right _ _

theorem countP_isUsed_foldl_place_le (rest : List Slot) (slots : Array Slot) :
    (rest.foldl place slots).countP Slot.isUsed ≤
      slots.countP Slot.isUsed + rest.countP Slot.isLive := by
  induction rest generalizing slots with
  | nil => exact Nat.le_add_right _ _
  | cons s rest ih =>
    have first := countP_isUsed_place_le slots s
    have others := ih (place slots s)
    rw [List.foldl_cons, List.countP_cons]
    omega

/-- Fresh slots are used by what was moved there. -/
theorem countP_isUsed_moved_le (moved : List Slot) (n : Nat) :
    (moved.foldl place (Array.replicate n .vacant)).countP Slot.isUsed ≤
      moved.countP Slot.isLive := by
  have used := countP_isUsed_foldl_place_le moved (.replicate n .vacant)
  rwa [Array.countP_replicate, if_neg (by simp [Slot.isUsed]), Nat.zero_add] at used

namespace Roomy

theorem empty : Table.empty.Roomy := ⟨.inl rfl, Nat.le_refl 0, Nat.le_refl 0⟩

/-- A table may be laid out anew in enough slots. Entries of one handle may meet there in one slot,
and each is counted all the same. -/
theorem rehash {n : Nat} (room : t.slots.countP Slot.isLive * 4 ≤ 2 ^ (n + 3) * 3) :
    (t.rehash (2 ^ (n + 3))).Roomy := by
  refine ⟨.inr ⟨n, capacity_rehash t _⟩, ?_, by rwa [occupied_rehash, capacity_rehash]⟩
  have moved := countP_isUsed_moved_le t.slots.toList (2 ^ (n + 3))
  rw [Array.foldl_toList, Array.countP_toList] at moved
  rw [occupied_rehash]
  exact moved

/-- There is room for one more key once it is reserved. -/
theorem reserve (roomy : t.Roomy) :
    t.reserve.Roomy ∧ (t.reserve.occupied + 1) * 4 ≤ t.reserve.capacity * 3 := by
  have used := roomy.used
  have load := roomy.load
  have live := countP_isLive_le t.slots
  rw [Table.reserve]
  split
  -- Tombstones are not moved, so what is counted afterwards are the live slots.
  next full =>
    obtain ⟨n, doubled⟩ := roomy.rounded.doubled
    rw [← capacity] at doubled
    rw [doubled]
    refine ⟨rehash ?_, ?_⟩
    · rw [← doubled, leastCapacity]
      omega
    · rw [occupied_rehash, capacity_rehash, ← doubled, leastCapacity]
      omega
  next room => exact ⟨roomy, by omega⟩

/-- Writing a slot that was never used takes one more slot, and writing another takes none. -/
theorem set {occupied tombstones : Nat} {old new : Slot} (roomy : t.Roomy)
    (found : t.slots[i]? = some old)
    (counted : t.occupied + (if new.isUsed then 1 else 0) ≤
      occupied + (if old.isUsed then 1 else 0))
    (load : occupied * 4 ≤ t.capacity * 3) :
    Roomy ⟨occupied, tombstones, t.slots.setIfInBounds i new⟩ := by
  have used := roomy.used
  have written := countP_set Slot.isUsed new found
  refine ⟨?_, ?_, ?_⟩
  · simpa [Rounded] using roomy.rounded
  · simp only
    omega
  · simpa [capacity] using load

theorem insert (roomy : t.Roomy) (key : Key) (value : Value) : (t.insert key value).2.Roomy := by
  obtain ⟨reserved, room⟩ := roomy.reserve
  rw [Table.insert]
  split
  · exact reserved
  next i _ =>
    split
    · exact reserved
    next vacant => exact reserved.set vacant (by simp [Slot.isUsed]) room
    next value used tombstone =>
      exact reserved.set tombstone (by simp [Slot.isUsed, if_neg used]) reserved.load
    next live => exact reserved.set live (by simp [Slot.isUsed]) reserved.load

theorem erase (roomy : t.Roomy) (key : Key) : (t.erase key).2.Roomy := by
  rw [Table.erase]
  split
  · exact roomy
  · split
    · exact roomy
    · split
      next live => exact roomy.set live (by simp [Slot.isUsed]) roomy.load
      next => exact roomy

theorem eraseUnless (roomy : t.Roomy) (keep : Handle → Bool) : (t.eraseUnless keep).2.Roomy := by
  refine ⟨?_, ?_, ?_⟩
  · simpa [Rounded, Table.eraseUnless] using roomy.rounded
  · rw [countP_isUsed_eraseUnless]
    exact roomy.used
  · rw [capacity_eraseUnless]
    exact roomy.load

theorem insertAll (roomy : t.Roomy) (entries : List (Key × Value)) :
    (t.insertAll entries).Roomy := by
  induction entries generalizing t with
  | nil => exact roomy
  | cons e entries ih => exact ih (roomy.insert e.1 e.2)

end Roomy

theorem Made.roomy (made : t.Made) : t.Roomy := by
  induction made with
  | empty => exact .empty
  | insert key value _ roomy => exact roomy.insert key value
  | erase key _ roomy => exact roomy.erase key
  | addAll _ _ roomy _ => exact roomy.insertAll _
  | eraseUnless keep _ roomy => exact roomy.eraseUnless keep

/-! ## Every search ends -/

/-- The slots that are searched have a number of slots that tables have, and one of them was never
used. -/
theorem Roomy.searched (roomy : t.Roomy) (searches : t.Searches slots key) :
    Rounded slots ∧ .vacant ∈ slots := by
  have live := countP_isLive_le t.slots
  cases searches with
  | find key used => exact ⟨roomy.rounded, roomy.vacant_mem (roomy.size_pos used)⟩
  | insert key =>
    obtain ⟨reserved, room⟩ := roomy.reserve
    refine ⟨reserved.rounded, reserved.vacant_mem ?_⟩
    rw [← capacity]
    omega
  | move moved later full split =>
    obtain ⟨n, doubled⟩ := roomy.rounded.doubled
    rw [← capacity] at doubled
    have used := countP_isUsed_moved_le moved (2 ^ (n + 3))
    -- The entries moved so far are some of the table, so the new slots are not full yet.
    have part : moved.countP Slot.isLive ≤ t.slots.countP Slot.isLive := by
      rw [← Array.countP_toList, split, List.countP_append]
      exact Nat.le_add_right _ _
    have counted := roomy.used
    have load := roomy.load
    rw [moving, doubled]
    refine ⟨.inr ⟨n, by simp⟩, Table.vacant_mem ?_⟩
    rw [size_foldl_place, Array.size_replicate]
    rw [leastCapacity] at doubled
    omega

theorem Rounded.look_eq (rounded : Rounded slots) (room : 0 < slots.size) (n : Nat) :
    look slots hash n = stop slots hash n :=
  rounded.iterate_next room hash n

/-- Some slot is the first vacant one on the way of a probe. -/
theorem Rounded.exists_first (rounded : Rounded slots) (vacant : .vacant ∈ slots) (hash : UInt64) :
    ∃ n < slots.size, First slots hash (· = .vacant) n := by
  classical
  obtain ⟨j, lt, at_⟩ := Array.mem_iff_getElem.mp vacant
  obtain ⟨d, dlt, rfl⟩ := exists_stop hash lt
  have somewhere : ∃ d s, slots[look slots hash d]? = some s ∧ s = .vacant := by
    refine ⟨d, _, ?_, at_⟩
    rw [rounded.look_eq (Nat.zero_lt_of_lt lt), Array.getElem?_eq_getElem lt]
  have le : Nat.find somewhere ≤ d := Nat.find_min' somewhere (by
    rw [rounded.look_eq (Nat.zero_lt_of_lt lt), Array.getElem?_eq_getElem lt]
    exact ⟨_, rfl, at_⟩)
  exact ⟨Nat.find somewhere, by omega, Nat.find_spec somewhere,
    fun m below s at_ eq => Nat.find_min somewhere below ⟨s, at_, eq⟩⟩

/-- An absent key is located where it belongs. -/
theorem Rounded.belongsIn (rounded : Rounded slots) (vacant : .vacant ∈ slots)
    (absent : ∀ s ∈ slots, ¬ s.holds key.handle) :
    ∃ i, locate? slots key = some i ∧ BelongsIn slots key.hash i := by
  obtain ⟨e, -, eq, ⟨s, found, dead⟩, clear⟩ := rounded.locate?_of_absent vacant absent
  obtain ⟨n, lt, first⟩ := rounded.exists_first vacant key.hash
  have room : 0 < slots.size := Nat.zero_lt_of_lt lt
  rw [← rounded.look_eq room] at eq found
  obtain ⟨⟨_, here, rfl⟩, before⟩ := id first
  -- The slots that the probe passes are live.
  have passed (m : Nat) (below : m < e) (s : Slot) (at_ : slots[look slots key.hash m]? = some s) :
      s.isLive := by
    obtain ⟨s', found, live⟩ := clear m below
    rw [rounded.look_eq room, found] at at_
    exact Option.some.inj at_ ▸ live
  have le : e ≤ n := Nat.le_of_not_lt fun below => by simpa using passed n below _ here
  refine ⟨_, eq, n, lt, first, ?_⟩
  cases s with
  | live k v => simp at dead
  | tombstone value used =>
    have other : e ≠ n := by
      rintro rfl
      exact used (by simpa using found.symm.trans here)
    exact .inl ⟨e, by omega, ⟨⟨_, found, bne_iff_ne.mpr used⟩,
      fun m below s at_ => Slot.not_isTombstone_of_isLive (passed m below s at_)⟩, rfl⟩
  | vacant =>
    obtain rfl : e = n :=
      Nat.le_antisymm le (Nat.le_of_not_lt fun below => before e below _ found rfl)
    exact .inr ⟨fun m below s at_ => Slot.not_isTombstone_of_isLive (passed m below s at_), rfl⟩

theorem Rounded.ends (rounded : Rounded slots) (vacant : .vacant ∈ slots) (key : Key) :
    Ends slots key := by
  have room : 0 < slots.size := Array.size_pos_of_mem vacant
  obtain ⟨n, lt, ⟨_, here, rfl⟩, -⟩ := rounded.exists_first vacant key.hash
  have reached : slots[stop slots key.hash (0 + n)]? = some .vacant := by
    rw [Nat.zero_add, ← rounded.look_eq room]
    exact here
  obtain ⟨i, eq⟩ : ∃ i,
      probe slots key.handle slots.size (stop slots key.hash 0) none = some i :=
    rounded.exists_probe reached lt
  rw [← rounded.home_eq room] at eq
  obtain ⟨looks, le, walks⟩ := probe_eq_some_iff.mp eq
  exact ⟨Nat.ne_of_gt room, ⟨looks, le, i, walks.answer_lt (by simp), walks, eq⟩,
    rounded.belongsIn vacant⟩

/-- A search for a text ends. -/
theorem Roomy.walksText (roomy : t.Roomy) (used : t.occupied ≠ 0) (text : String) (hash : UInt64)
    (resolve : Handle → Option String) :
    ∃ looks ≤ t.capacity, WalksText t.slots text hash resolve (home t.slots hash) looks
      (t.findText? text hash resolve) := by
  obtain ⟨answer, eq⟩ := roomy.textSearchable text hash resolve used
  rw [findText?, if_neg used, eq]
  exact probeText_eq_some_iff.mp eq

/-! ## Operations search nowhere else -/

namespace Finder

variable {find : Finder}
  (agree : ∀ slots key, t.Searches slots key → find slots key = locate? slots key)
include agree

theorem foldl_place_eq (full : t.capacity * 3 < (t.occupied + 1) * 4) (moved later : List Slot)
    (split : t.slots.toList = moved ++ later) :
    later.foldl find.place (t.moving moved) = later.foldl Table.place (t.moving moved) := by
  -- By induction on the slots to come; the agreement is asked for with those before them moved.
  induction later generalizing moved with
  | nil => rfl
  | cons s later ih =>
    have placed : find.place (t.moving moved) s = Table.place (t.moving moved) s := by
      cases s with
      | live key value =>
        rw [place, agree _ _ (.move moved later full split)]
        rfl
      | vacant | tombstone => rfl
    have rest := ih (moved ++ [s]) (by rw [split, List.append_assoc]; rfl)
    rw [moving, List.foldl_append, ← moving] at rest
    rw [List.foldl_cons, List.foldl_cons, placed]
    exact rest

theorem reserve_eq : find.reserve t = t.reserve := by
  rw [reserve, Table.reserve]
  split
  next full =>
    have fold := foldl_place_eq agree full [] t.slots.toList rfl
    simp only [moving, List.foldl_nil, Array.foldl_toList] at fold
    simp only [rehash, Table.rehash, fold]
  next => rfl

theorem get?_eq (key : Key) : find.get? t key = t.get? key := by
  rw [get?, Table.get?]
  split
  next => rfl
  next used => rw [agree _ _ (.find key used)]

theorem erase_eq (key : Key) : find.erase t key = t.erase key := by
  rw [erase, Table.erase]
  split
  next => rfl
  next used =>
    rewrite [agree _ _ (.find key used)]
    rfl

theorem insert_eq (key : Key) (value : Value) : find.insert t key value = t.insert key value := by
  rewrite [insert, Table.insert, reserve_eq agree, agree _ _ (.insert key)]
  rfl

end Finder

/-- Probes end in every table that operations make of the empty one, whatever keys and hashes they
are given, also if all used slots are tombstones. Wherever looking up, erasing, setting or making
room searches for a key there are slots, and the probe answers one of them after no more looks than
there are slots; an absent key is located where it belongs. A search for a text ends likewise. The
operations search nowhere else: with any way to find keys that agrees on these searches they do the
same. -/
theorem Made.probes_end (made : t.Made) :
    (∀ slots key, t.Searches slots key → Ends slots key) ∧
      (∀ text hash resolve, t.occupied ≠ 0 → t.capacity ≠ 0 ∧
        ∃ looks ≤ t.capacity, WalksText t.slots text hash resolve (home t.slots hash) looks
          (t.findText? text hash resolve)) ∧
      ∀ find : Finder, (∀ slots key, t.Searches slots key → find slots key = locate? slots key) →
        ∀ key value, find.get? t key = t.get? key ∧ find.erase t key = t.erase key ∧
          find.insert t key value = t.insert key value := by
  have roomy := made.roomy
  refine ⟨fun slots key searches => ?_, fun text hash resolve used => ⟨?_, ?_⟩,
    fun find agree key value => ?_⟩
  · obtain ⟨rounded, vacant⟩ := roomy.searched searches
    exact rounded.ends vacant key
  · exact Nat.ne_of_gt (roomy.size_pos used)
  · exact roomy.walksText used text hash resolve
  · exact ⟨Finder.get?_eq agree key, Finder.erase_eq agree key, Finder.insert_eq agree key value⟩

/-- Six keys of one hash were set, and all of them were erased. Six of eight slots are tombstones,
and the other two were never used. -/
def littered : Table :=
  (List.range 6).foldl (fun t i => (t.erase ⟨⟨i⟩, 7⟩).2)
    ((List.range 6).foldl (fun t i => (t.insert ⟨⟨i⟩, 7⟩ (.object ⟨i⟩)).2) empty)

theorem made_littered : littered.Made :=
  .erase _ (.erase _ (.erase _ (.erase _ (.erase _ (.erase _ (.insert _ _ (.insert _ _ (.insert _ _
    (.insert _ _ (.insert _ _ (.insert _ _ .empty)))))))))))

/-- Another key of this hash is searched among tombstones only. The probe begins in the last slot,
goes around the end, passes all six tombstones, and answers the first of them. -/
theorem probes_end_littered :
    littered.Made ∧ littered.occupied = 6 ∧ littered.slots.countP Slot.isTombstone = 6 ∧
      Searches littered littered.slots ⟨⟨6⟩, 7⟩ ∧ Ends littered.slots ⟨⟨6⟩, 7⟩ ∧
      locate? littered.slots ⟨⟨6⟩, 7⟩ = some 7 ∧
      probe littered.slots ⟨6⟩ 7 (home littered.slots 7) none = some 7 ∧
      probe littered.slots ⟨6⟩ 6 (home littered.slots 7) none = none := by
  have search : Searches littered littered.slots ⟨⟨6⟩, 7⟩ := .find _ (by decide +kernel)
  exact ⟨made_littered, by decide +kernel, by decide +kernel, search,
    made_littered.probes_end.1 _ _ search, by decide +kernel, by decide +kernel, by decide +kernel⟩

end Table

end ScriptMachine
