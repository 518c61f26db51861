/-
# Probing

The slots of a table are laid out so that a probe for a key cannot miss it: on
the way from the home slot of a live key to the key itself no slot is vacant,
and no handle lies in two slots. As long as some slot is vacant, every probe
comes to an end. A present key is found in its slot, and an absent key is
given the first slot on its way that is not live.

Slots are counted by the steps of a probe. A step leads to the next slot modulo
the capacity, which is a power of two, so the masks of the code are remainders.

## Main definitions

* `Table.stop` — where a probe stands after some steps
* `Table.Rounded` — the number of slots is one that tables have
* `Table.Layout` — what makes probes find their keys

## Main results

* `Layout.locate?_of_present`, `Rounded.locate?_of_absent` — where a probe ends
* `Layout.set` — which changes of a slot keep the layout
* `probeText_sound`, `Layout.probeText_of_present`, `Rounded.exists_probeText` — looking for a text
-/

import Mathlib.Data.Nat.ModEq
import Mathlib.Logic.Function.Iterate
import Mathlib.Tactic.Common
import ScriptMachine.Table.Basic

namespace ScriptMachine

namespace Slot

/-- The slot is live or a tombstone. -/
def isUsed : Slot → Bool
  | keyless value => value != .nil
  | live _ _ => true

/-- The slot has no key, and a value other than nil. -/
def isTombstone : Slot → Bool
  | keyless value => value != .nil
  | live _ _ => false

def isLive : Slot → Bool
  | live _ _ => true
  | _ => false

/-- A slot was never used, or it is a tombstone, or it is live. -/
@[elab_as_elim, cases_eliminator]
theorem cases {motive : Slot → Prop} (vacant : motive .vacant)
    (tombstone : ∀ value, value ≠ .nil → motive (.keyless value))
    (live : ∀ key value, motive (.live key value)) (s : Slot) : motive s := by
  match s with
  | .vacant => exact vacant
  | .keyless (.bool b) => exact tombstone _ nofun
  | .keyless (.number n) => exact tombstone _ nofun
  | .keyless (.object h) => exact tombstone _ nofun
  | .live key value => exact live key value

@[simp] theorem isUsed_live (key : Key) (value : Value) : (live key value).isUsed = true := rfl

@[simp] theorem isTombstone_live (key : Key) (value : Value) :
    (live key value).isTombstone = false := rfl

@[simp] theorem isUsed_tombstone : tombstone.isUsed = true := rfl

@[simp] theorem isTombstone_tombstone : tombstone.isTombstone = true := rfl

@[simp] theorem isUsed_eq_false_iff {s : Slot} : s.isUsed = false ↔ s = .vacant := by
  cases s <;> simp [isUsed]

@[simp] theorem isLive_iff {s : Slot} : s.isLive ↔ ∃ key value, s = .live key value := by
  cases s <;> simp [isLive]

theorem not_isTombstone_of_isLive {s : Slot} (live : s.isLive) : ¬ s.isTombstone := by
  obtain ⟨key, value, rfl⟩ := isLive_iff.mp live
  simp

theorem holds_iff {s : Slot} {h : Handle} :
    s.holds h ↔ ∃ key value, s = .live key value ∧ key.handle = h := by
  cases s <;> simp [holds]

end Slot

namespace Table

variable {slots : Array Slot} {key : Key} {value : Value} {hash : UInt64} {h : Handle}
  {i n : Nat}

/-- Where a probe for a hash stands after a number of steps. -/
def stop (slots : Array Slot) (hash : UInt64) (n : Nat) : Nat := (hash.toNat + n) % slots.size

theorem stop_lt (room : 0 < slots.size) (hash : UInt64) (n : Nat) :
    stop slots hash n < slots.size :=
  Nat.mod_lt _ room

/-- A probe comes to every slot in fewer steps than there are slots. -/
theorem exists_stop (hash : UInt64) (lt : i < slots.size) :
    ∃ n < slots.size, stop slots hash n = i := by
  have room : 0 < slots.size := Nat.zero_lt_of_lt lt
  have below := Nat.mod_lt hash.toNat room
  have split := Nat.div_add_mod hash.toNat slots.size
  refine ⟨(i + (slots.size - hash.toNat % slots.size)) % slots.size, Nat.mod_lt _ room, ?_⟩
  have turns : hash.toNat + (i + (slots.size - hash.toNat % slots.size)) =
      i + slots.size * (hash.toNat / slots.size + 1) := by
    rw [Nat.mul_succ]
    omega
  rw [stop, Nat.add_mod_mod, turns, Nat.add_mul_mod_self_left, Nat.mod_eq_of_lt lt]

/-- A probe comes to no slot twice within a round. -/
theorem stop_injective {m : Nat} (mlt : m < slots.size) (nlt : n < slots.size)
    (eq : stop slots hash m = stop slots hash n) : m = n := by
  have modEq : m ≡ n [MOD slots.size] := Nat.ModEq.add_left_cancel' hash.toNat eq
  rwa [Nat.ModEq, Nat.mod_eq_of_lt mlt, Nat.mod_eq_of_lt nlt] at modEq

/-- The number of slots is one that tables have: none, or a power of two, at least eight. -/
def Rounded (slots : Array Slot) : Prop := slots.size = 0 ∨ ∃ k, slots.size = 2 ^ (k + 3)

namespace Rounded

theorem home_eq (rounded : Rounded slots) (room : 0 < slots.size) (hash : UInt64) :
    home slots hash = stop slots hash 0 := by
  obtain empty | ⟨k, eq⟩ := rounded
  · omega
  · rw [home, stop, eq, Nat.and_two_pow_sub_one_eq_mod]
    rfl

theorem next_stop (rounded : Rounded slots) (room : 0 < slots.size) (hash : UInt64) (n : Nat) :
    next slots (stop slots hash n) = stop slots hash (n + 1) := by
  obtain empty | ⟨k, eq⟩ := rounded
  · omega
  · rw [next, eq, Nat.and_two_pow_sub_one_eq_mod, stop, stop, eq, Nat.mod_add_mod, Nat.add_assoc]

/-- The masks of the code lead from stop to stop. -/
theorem iterate_next (rounded : Rounded slots) (room : 0 < slots.size) (hash : UInt64) (n : Nat) :
    (next slots)^[n] (home slots hash) = stop slots hash n := by
  induction n with
  | zero => exact rounded.home_eq room hash
  | succ n ih => rw [Function.iterate_succ_apply', ih, rounded.next_stop room]

/-- A table grows to such a number of slots. -/
theorem doubled (rounded : Rounded slots) :
    ∃ n, max (slots.size * 2) leastCapacity = 2 ^ (n + 3) := by
  obtain empty | ⟨k, eq⟩ := rounded
  · exact ⟨0, by rw [empty]; rfl⟩
  · refine ⟨k + 1, ?_⟩
    have := Nat.pow_pos (n := k) (Nat.zero_lt_two)
    rw [eq, leastCapacity, Nat.pow_succ, Nat.pow_succ, Nat.pow_succ, Nat.pow_succ, Nat.pow_succ,
      Nat.pow_succ, Nat.pow_succ]
    omega

/-- A probe comes to an end if it would come to a vacant slot. -/
theorem exists_probe {bound d : Nat} {spare : Option Nat} (rounded : Rounded slots)
    (vacant : slots[stop slots hash (n + d)]? = some .vacant) (lt : d < bound) :
    ∃ i, probe slots h bound (stop slots hash n) spare = some i := by
  have room : 0 < slots.size := Array.size_pos_of_mem (Array.mem_of_getElem? vacant)
  induction d generalizing n bound spare with
  | zero =>
    obtain ⟨bound, rfl⟩ := Nat.exists_eq_add_one_of_ne_zero (Nat.ne_of_gt lt)
    rw [Nat.add_zero] at vacant
    exact ⟨spare.getD (stop slots hash n), by simp [probe, vacant]⟩
  | succ d ih =>
    obtain ⟨bound, rfl⟩ := Nat.exists_eq_add_one_of_ne_zero (Nat.ne_zero_of_lt lt)
    have step (spare : Option Nat) :
        ∃ i, probe slots h bound (next slots (stop slots hash n)) spare = some i := by
      rw [rounded.next_stop room]
      exact ih (by rwa [Nat.add_right_comm]) (by omega)
    rw [probe]
    split
    next none =>
      rw [Array.getElem?_eq_getElem (stop_lt room hash n)] at none
      cases none
    · exact ⟨_, rfl⟩
    · exact step _
    next k _ _ =>
      split
      · exact ⟨_, rfl⟩
      · exact step _

/-- A probe that has passed a tombstone answers it when it comes to a vacant slot. -/
theorem probe_of_spare {bound d j : Nat} (rounded : Rounded slots)
    (vacant : slots[stop slots hash (n + d)]? = some .vacant) (lt : d < bound)
    (absent : ∀ s ∈ slots, ¬ s.holds h) :
    probe slots h bound (stop slots hash n) (some j) = some j := by
  have room : 0 < slots.size := Array.size_pos_of_mem (Array.mem_of_getElem? vacant)
  induction d generalizing n bound with
  | zero =>
    obtain ⟨bound, rfl⟩ := Nat.exists_eq_succ_of_ne_zero (by omega : bound ≠ 0)
    simp only [Nat.add_zero] at vacant
    simp [probe, vacant]
  | succ d ih =>
    obtain ⟨bound, rfl⟩ := Nat.exists_eq_succ_of_ne_zero (by omega : bound ≠ 0)
    -- What the probe has kept in mind stays the same, as it keeps the first tombstone only.
    have rest : probe slots h bound (next slots (stop slots hash n)) (some j) = some j := by
      rw [rounded.next_stop room]
      exact ih (by rwa [Nat.add_assoc, Nat.add_comm 1]) (by omega)
    have inside := stop_lt room hash n
    have at_ := Array.getElem?_eq_getElem inside
    cases s : slots[stop slots hash n] with
    | vacant => simp [probe, at_, s]
    | tombstone => simp [probe, at_, s, rest]
    | live k v =>
      have : k.handle ≠ h := by
        have := absent _ (Array.getElem_mem inside)
        simpa [s, Slot.holds] using this
      simp [probe, at_, s, this, rest]

/-- A probe for an absent handle answers the first slot on its way that is not live. -/
theorem probe_of_absent {bound d : Nat} (rounded : Rounded slots)
    (vacant : slots[stop slots hash (n + d)]? = some .vacant) (lt : d < bound)
    (absent : ∀ s ∈ slots, ¬ s.holds h) :
    ∃ e ≤ d, probe slots h bound (stop slots hash n) none = some (stop slots hash (n + e)) ∧
      (∃ s, slots[stop slots hash (n + e)]? = some s ∧ ¬ s.isLive) ∧
      ∀ m < e, ∃ s, slots[stop slots hash (n + m)]? = some s ∧ s.isLive := by
  have room : 0 < slots.size := Array.size_pos_of_mem (Array.mem_of_getElem? vacant)
  induction d generalizing n bound with
  | zero =>
    obtain ⟨bound, rfl⟩ := Nat.exists_eq_succ_of_ne_zero (by omega : bound ≠ 0)
    simp only [Nat.add_zero] at vacant
    exact ⟨0, by omega, by simp [probe, vacant], by simp [vacant], by simp⟩
  | succ d ih =>
    obtain ⟨bound, rfl⟩ := Nat.exists_eq_succ_of_ne_zero (by omega : bound ≠ 0)
    have shift (m : Nat) : n + 1 + m = n + (m + 1) := by omega
    have inside := stop_lt room hash n
    have at_ := Array.getElem?_eq_getElem inside
    cases s : slots[stop slots hash n] with
    | vacant => exact ⟨0, by omega, by simp [probe, at_, s], by simp [at_, s], by simp⟩
    -- From the first tombstone on the answer is known.
    | tombstone =>
      have rest := rounded.probe_of_spare (n := n + 1) (j := stop slots hash n)
        (by rwa [shift]) (by omega : d < bound) absent
      refine ⟨0, by omega, ?_, by simp [at_, s], by simp⟩
      simp [probe, at_, s, rounded.next_stop room, rest]
    | live k v =>
      have other : k.handle ≠ h := by
        have := absent _ (Array.getElem_mem inside)
        simpa [s, Slot.holds] using this
      -- The answer is that of the probe from the next stop, one stop further away.
      obtain ⟨e, le, eq, free, clear⟩ := ih (n := n + 1) (by rwa [shift])
        (by omega : d < bound)
      simp only [shift] at eq free clear
      refine ⟨e + 1, by omega, ?_, free, fun m lt => ?_⟩
      · simp [probe, at_, s, other, rounded.next_stop room, eq]
      · cases m with
        | zero => exact ⟨_, at_, by simp [s]⟩
        | succ m => exact clear m (by omega)

/-- A key that is absent is located in the first slot on its way that is not live. -/
theorem locate?_of_absent (rounded : Rounded slots) (vacant : .vacant ∈ slots)
    (absent : ∀ s ∈ slots, ¬ s.holds key.handle) :
    ∃ n < slots.size, locate? slots key = some (stop slots key.hash n) ∧
      (∃ s, slots[stop slots key.hash n]? = some s ∧ ¬ s.isLive) ∧
      ∀ m < n, ∃ s, slots[stop slots key.hash m]? = some s ∧ s.isLive := by
  obtain ⟨j, lt, at_⟩ := Array.mem_iff_getElem.mp vacant
  obtain ⟨d, dlt, rfl⟩ := exists_stop key.hash lt
  have inside : slots[stop slots key.hash (0 + d)]? = some .vacant := by
    rw [Nat.zero_add, Array.getElem?_eq_getElem lt, at_]
  obtain ⟨e, le, eq, free, clear⟩ := rounded.probe_of_absent inside dlt absent
  simp only [Nat.zero_add] at eq free clear
  refine ⟨e, by omega, ?_, free, clear⟩
  have probed : probe? slots key = some (stop slots key.hash e) := by
    rw [probe?, rounded.home_eq (Nat.zero_lt_of_lt lt), eq]
  have scanned : slots.findIdx? (Slot.holds key.handle) = none :=
    Array.findIdx?_eq_none_iff.mpr fun s mem => by simpa using absent s mem
  simp [locate?, scanned, probed]

end Rounded

/-- No slot is vacant between the home slot of a live key and the key, and no handle lies in two
slots. -/
structure Layout (slots : Array Slot) : Prop where
  capacity : slots.size = 0 ∨ ∃ k, slots.size = 2 ^ (k + 3)
  unique : ∀ (i j : Nat) (key key' : Key) (value value' : Value),
    slots[i]? = some (.live key value) → slots[j]? = some (.live key' value') →
      key.handle = key'.handle → i = j
  path : ∀ (i : Nat) (key : Key) (value : Value), slots[i]? = some (.live key value) →
    ∃ n < slots.size, stop slots key.hash n = i ∧
      ∀ m < n, slots[stop slots key.hash m]? ≠ some .vacant

namespace Layout

theorem rounded (layout : Layout slots) : Rounded slots := layout.capacity

/-- A probe that is not stopped before comes to the handle. -/
theorem probe_of_present {bound d : Nat} {spare : Option Nat} (layout : Layout slots)
    (found : slots[stop slots hash (n + d)]? = some (.live key value)) (lt : d < bound)
    (clear : ∀ m < d, ∃ s, slots[stop slots hash (n + m)]? = some s ∧ s ≠ .vacant ∧
      ¬ s.holds key.handle) :
    probe slots key.handle bound (stop slots hash n) spare = some (stop slots hash (n + d)) := by
  have room : 0 < slots.size := Array.size_pos_of_mem (Array.mem_of_getElem? found)
  -- By induction on the distance to the slot. The probe goes one stop on, so the start varies.
  induction d generalizing n bound spare with
  | zero =>
    obtain ⟨bound, rfl⟩ := Nat.exists_eq_succ_of_ne_zero (by omega : bound ≠ 0)
    simp only [Nat.add_zero] at found
    simp [probe, found]
  | succ d ih =>
    obtain ⟨bound, rfl⟩ := Nat.exists_eq_succ_of_ne_zero (by omega : bound ≠ 0)
    have shift (m : Nat) : n + (m + 1) = n + 1 + m := by omega
    have rest (spare : Option Nat) :
        probe slots key.handle bound (next slots (stop slots hash n)) spare =
          some (stop slots hash (n + (d + 1))) := by
      rw [layout.rounded.next_stop room, shift d]
      apply ih (by rwa [← shift]) (by omega : d < bound)
      intro m lt
      obtain ⟨s, at_, used, other⟩ := clear (m + 1) (by omega)
      exact ⟨s, by rwa [← shift], used, other⟩
    obtain ⟨s, at_, used, other⟩ := clear 0 (by omega)
    simp only [Nat.add_zero] at at_
    cases s with
    | vacant => exact absurd rfl used
    | tombstone => simp [probe, at_, rest]
    | live k v =>
      have : k.handle ≠ key.handle := by simpa [Slot.holds] using other
      -- Another key is here; the probe passes it.
      simp [probe, at_, this, rest]

/-! ## The slot of a key -/

/-- A probe for a key that is present ends in its slot. -/
theorem probe?_of_present (layout : Layout slots)
    (found : slots[i]? = some (.live key value)) : probe? slots key = some i := by
  obtain ⟨n, lt, rfl, clear⟩ := layout.path i key value found
  have room : 0 < slots.size := Nat.zero_lt_of_lt lt
  rw [probe?, layout.rounded.home_eq room]
  rw [← Nat.zero_add n] at found
  refine (layout.probe_of_present found lt fun m below => ?_).trans (by rw [Nat.zero_add])
  have inside := Array.getElem?_eq_getElem (stop_lt room key.hash m)
  refine ⟨_, by rwa [Nat.zero_add], fun vacant => clear m below (inside.trans (by rw [vacant])),
    fun held => ?_⟩
  obtain ⟨k, v, eq, same⟩ := Slot.holds_iff.mp held
  rw [Nat.zero_add] at found
  have equal := layout.unique _ _ _ _ _ _ (inside.trans (by rw [eq])) found same
  exact absurd (stop_injective (below.trans lt) lt equal) (Nat.ne_of_lt below)

/-- A key that is present is located in its slot. -/
theorem locate?_of_present (layout : Layout slots)
    (found : slots[i]? = some (.live key value)) : locate? slots key = some i := by
  unfold locate?
  split
  next =>
    cases scanned : slots.findIdx? (Slot.holds key.handle) with
    | none => simpa using layout.probe?_of_present found
    | some j =>
      obtain ⟨lt, held, -⟩ := Array.findIdx?_eq_some_iff_getElem.mp scanned
      obtain ⟨k, v, eq, same⟩ := Slot.holds_iff.mp held
      have at_ : slots[j]? = some (.live k v) := by rw [Array.getElem?_eq_getElem lt, eq]
      simp [layout.unique _ _ _ _ _ _ at_ found same]
  next => simpa using layout.probe?_of_present found

/-! ## Changes of the slots -/

/-- A slot may become used if what it comes to hold is found from its home slot and lies nowhere
else. -/
theorem set {new : Slot} (layout : Layout slots) (inside : i < slots.size)
    (used : new ≠ .vacant)
    (alone : ∀ j key key' value value', new = .live key value → j ≠ i →
      slots[j]? = some (.live key' value') → key.handle ≠ key'.handle)
    (reached : ∀ key value, new = .live key value → ∃ n < slots.size,
      stop slots key.hash n = i ∧ ∀ m < n, slots[stop slots key.hash m]? ≠ some .vacant) :
    Layout (slots.setIfInBounds i new) := by
  have at_ (j : Nat) : (slots.setIfInBounds i new)[j]? = if i = j then some new else slots[j]? := by
    rw [Array.getElem?_setIfInBounds, if_pos inside]
  have size : (slots.setIfInBounds i new).size = slots.size := by simp
  have same (hash : UInt64) (n : Nat) :
      stop (slots.setIfInBounds i new) hash n = stop slots hash n := by simp [stop]
  -- No slot has become vacant, so no path is cut.
  have clear (hash : UInt64) (n : Nat)
      (before : ∀ m < n, slots[stop slots hash m]? ≠ some .vacant) :
      ∀ m < n, (slots.setIfInBounds i new)[stop slots hash m]? ≠ some .vacant := by
    intro m lt
    rw [at_]
    split
    · simpa using used
    · exact before m lt
  refine ⟨by rw [size]; exact layout.capacity, fun j j' k k' v v' foundJ foundJ' eq => ?_,
    fun j k v found => ?_⟩
  · rw [at_] at foundJ foundJ'
    split at foundJ <;> split at foundJ'
    next here here' => exact here.symm.trans here'
    -- The slot that changed is one of the two.
    next here there' =>
      exact absurd eq (alone j' k k' v v' (by simpa using foundJ) (Ne.symm there') foundJ')
    next there here' =>
      exact absurd eq.symm (alone j k' k v' v (by simpa using foundJ') (Ne.symm there) foundJ)
    next => exact layout.unique j j' k k' v v' foundJ foundJ' eq
  · rw [at_] at found
    simp only [same, size]
    split at found
    next here =>
      subst here
      obtain ⟨n, lt, eq, before⟩ := reached k v (by simpa using found)
      exact ⟨n, lt, eq, clear k.hash n before⟩
    next =>
      -- Entries in other slots are found as before.
      obtain ⟨n, lt, eq, before⟩ := layout.path j k v found
      exact ⟨n, lt, eq, clear k.hash n before⟩

/-- Slots may become tombstones. -/
theorem map {f : Slot → Slot} (layout : Layout slots)
    (erases : ∀ s, f s = s ∨ f s = .tombstone) : Layout (slots.map f) := by
  have live {j : Nat} {k : Key} {v : Value} (found : (slots.map f)[j]? = some (.live k v)) :
      slots[j]? = some (.live k v) := by
    rw [Array.getElem?_map, Option.map_eq_some_iff] at found
    obtain ⟨s, found, eq⟩ := found
    obtain same | erased := erases s
    · rw [found, ← same, eq]
    · simp [erased] at eq
  -- The vacant slots were vacant before, so no path is cut.
  have vacant {j : Nat} (found : (slots.map f)[j]? = some .vacant) : slots[j]? = some .vacant := by
    rw [Array.getElem?_map, Option.map_eq_some_iff] at found
    obtain ⟨s, found, eq⟩ := found
    obtain same | erased := erases s
    · rw [found, ← same, eq]
    · simp [erased] at eq
  have same (hash : UInt64) (n : Nat) : stop (slots.map f) hash n = stop slots hash n := by
    simp [stop]
  refine ⟨by simpa using layout.capacity, fun j j' k k' v v' found found' eq =>
    layout.unique j j' k k' v v' (live found) (live found') eq, fun j k v found => ?_⟩
  obtain ⟨n, lt, eq, before⟩ := layout.path j k v (live found)
  simp only [same, Array.size_map]
  exact ⟨n, lt, eq, fun m lt found => before m lt (vacant found)⟩

/-- Fresh slots hold nothing. -/
theorem replicate (k : Nat) : Layout (Array.replicate (2 ^ (k + 3)) .vacant) := by
  have none {j : Nat} {key : Key} {value : Value} :
      (Array.replicate (2 ^ (k + 3)) Slot.vacant)[j]? ≠ some (.live key value) := by
    rw [Array.getElem?_replicate]
    split <;> simp
  exact ⟨.inr ⟨k, by simp⟩, fun _ _ _ _ _ _ found => absurd found none,
    fun _ _ _ found => absurd found none⟩

/-- A table without slots holds nothing. -/
theorem nil : Layout #[] :=
  ⟨.inl rfl, fun _ _ _ _ _ _ found => by simp at found, fun _ _ _ found => by simp at found⟩

end Layout

/-! ## Looking for a text -/

variable {text : String} {resolve : Handle → Option String}

/-- A key that is found for a text lies in a slot. -/
theorem probeText_sound {bound start : Nat}
    (eq : probeText slots text hash resolve bound start = some (some key)) :
    key.hash = hash ∧ resolve key.handle = some text ∧
      ∃ (i : Nat) (value : Value), slots[i]? = some (.live key value) := by
  induction bound generalizing start with
  | zero => simp [probeText] at eq
  | succ bound ih =>
    rw [probeText] at eq
    split at eq
    · cases eq
    · cases eq
    · exact ih eq
    next k value found =>
      split at eq
      next same =>
        obtain rfl : k = key := by simpa using eq
        exact ⟨same.1, same.2, start, value, found⟩
      next => exact ih eq

/-- A probe for a text that no vacant slot stops comes to a key for it. -/
theorem Layout.probeText_of_present {bound d : Nat} (layout : Layout slots)
    (found : slots[stop slots hash (n + d)]? = some (.live key value)) (lt : d < bound)
    (same : key.hash = hash) (resolved : resolve key.handle = some text)
    (clear : ∀ m < d, slots[stop slots hash (n + m)]? ≠ some .vacant) :
    ∃ k, probeText slots text hash resolve bound (stop slots hash n) = some (some k) := by
  have room : 0 < slots.size := Array.size_pos_of_mem (Array.mem_of_getElem? found)
  induction d generalizing n bound with
  | zero =>
    obtain ⟨bound, rfl⟩ := Nat.exists_eq_add_one_of_ne_zero (Nat.ne_of_gt lt)
    rw [Nat.add_zero] at found
    exact ⟨key, by simp [probeText, found, same, resolved]⟩
  | succ d ih =>
    obtain ⟨bound, rfl⟩ := Nat.exists_eq_add_one_of_ne_zero (Nat.ne_zero_of_lt lt)
    have below : d < bound := by omega
    -- Wherever the probe is not done it goes on like this.
    have step := ih (n := n + 1) (by rwa [Nat.add_right_comm]) below fun m lt => by
      rw [Nat.add_right_comm]
      exact clear (m + 1) (by omega)
    rw [← layout.rounded.next_stop room] at step
    have here := clear 0 (Nat.succ_pos d)
    rw [Nat.add_zero] at here
    rw [probeText]
    split
    next none =>
      rw [Array.getElem?_eq_getElem (stop_lt room hash n)] at none
      cases none
    next vacant => exact absurd vacant here
    · exact step
    next k _ _ =>
      split
      · exact ⟨k, rfl⟩
      · exact step

/-- A probe for a text comes to an end if it would come to a vacant slot. -/
theorem Rounded.exists_probeText {bound d : Nat} (rounded : Rounded slots)
    (vacant : slots[stop slots hash (n + d)]? = some .vacant) (lt : d < bound) :
    ∃ found, probeText slots text hash resolve bound (stop slots hash n) = some found := by
  have room : 0 < slots.size := Array.size_pos_of_mem (Array.mem_of_getElem? vacant)
  induction d generalizing n bound with
  | zero =>
    obtain ⟨bound, rfl⟩ := Nat.exists_eq_add_one_of_ne_zero (Nat.ne_of_gt lt)
    rw [Nat.add_zero] at vacant
    exact ⟨none, by simp [probeText, vacant]⟩
  | succ d ih =>
    obtain ⟨bound, rfl⟩ := Nat.exists_eq_add_one_of_ne_zero (Nat.ne_zero_of_lt lt)
    have step := ih (n := n + 1) (by rwa [Nat.add_right_comm]) (by omega : d < bound)
    rw [← rounded.next_stop room] at step
    rw [probeText]
    split
    next none =>
      rw [Array.getElem?_eq_getElem (stop_lt room hash n)] at none
      cases none
    · exact ⟨none, rfl⟩
    · exact step
    next k _ _ =>
      split
      · exact ⟨k, rfl⟩
      · exact step

end Table

end ScriptMachine
