/-
# Tables

A table maps the handles of strings to values. It is an open-addressing hash
table: a key carries its hash, the hash gives the slot where a probe starts,
and the probe goes on slot by slot, around the end, until it meets the key or
a vacant slot. Erasing a key leaves a tombstone, which a probe walks past, so
that keys behind it are still found. Both are slots without a key. They have a
value all the same, and a probe tells them apart by it: nil in a vacant slot,
and anything else in a tombstone, where erasing writes true.

At most three quarters of the slots are live or tombstones, so a vacant slot
ends every probe. A probe is bounded by the number of slots all the same; that
it gives `none` would mean that it never ends.

## Main definitions

* `Table.locate?` — the slot of a key, or the slot where it belongs
* `Table.get?`, `Table.insert`, `Table.erase` — the operations of a map
* `Table.findText?` — the key with a given text, among all with a given hash
* `Table.eraseUnless` — a tombstone for every key that is not kept
-/

import ScriptMachine.Value

namespace ScriptMachine

/-- A key of a table: the handle of a string, with the hash of the string beside it. -/
structure Key where
  handle : Handle
  hash : UInt64
  deriving DecidableEq, Repr

/-- A slot of a table is an entry: a value, with or without a key. -/
inductive Slot
  /-- The entry without a key that has this value, whatever the value is. -/
  | keyless (value : Value)
  /-- The entry of a key, with its value. -/
  | live (key : Key) (value : Value)
  deriving DecidableEq, Repr

namespace Slot

/-- Never used since the slots were laid out: no key, and nil. -/
@[match_pattern]
abbrev vacant : Slot := keyless .nil

/-- What erasing a key writes into its slot: no key, and true. -/
@[match_pattern]
abbrev tombstone : Slot := keyless (.bool true)

instance : Inhabited Slot := ⟨vacant⟩

/-- The key and the value of a live slot. -/
def binding? : Slot → Option (Key × Value)
  | live key value => some (key, value)
  | _ => none

/-- The slot is live with this handle. -/
def holds (h : Handle) : Slot → Bool
  | live key _ => key.handle == h
  | _ => false

end Slot

/-- A hash table from keys to values. -/
structure Table where
  /-- How many slots are live or tombstones. -/
  occupied : Nat
  tombstones : Nat
  slots : Array Slot
  deriving DecidableEq, Repr

namespace Table

/-- The table without slots. -/
def empty : Table := ⟨0, 0, #[]⟩

instance : Inhabited Table := ⟨empty⟩

/-- The least number of slots of a table that holds anything. -/
def leastCapacity : Nat := 8

/-- Up to this capacity all slots are looked through before a probe. -/
def smallCapacity : Nat := 8

/-- The bytes that one slot takes. -/
def slotSize : Nat := 32

/-- The number of slots. -/
def capacity (t : Table) : Nat := t.slots.size

/-- The number of keys. -/
def size (t : Table) : Nat := t.occupied - t.tombstones

def isEmpty (t : Table) : Bool := t.size == 0

/-- The bytes of all slots. -/
def footprint (t : Table) : Nat := slotSize * t.capacity

/-- The keys and their values, in the order of the slots. -/
def entries (t : Table) : List (Key × Value) := t.slots.toList.filterMap Slot.binding?

/-! ## Probing -/

/-- The slot where the probe for a hash starts. The number of slots is a power of two. -/
def home (slots : Array Slot) (hash : UInt64) : Nat := hash.toNat &&& (slots.size - 1)

/-- The slot after a slot, the first one after the last. -/
def next (slots : Array Slot) (index : Nat) : Nat := (index + 1) &&& (slots.size - 1)

/-- Walk from a slot to the handle or to a vacant slot, at most `bound` slots. For an absent
handle the answer is the first tombstone on the way, kept in `spare`, or else the vacant slot. -/
def probe (slots : Array Slot) (h : Handle) :
    (bound index : Nat) → (spare : Option Nat) → Option Nat
  | 0, _, _ => none
  | bound + 1, index, spare =>
    match slots[index]? with
    | none => none
    | some .vacant => some (spare.getD index)
    | some (.keyless _) => probe slots h bound (next slots index) (spare.or (some index))
    | some (.live key _) =>
      if key.handle = h then some index else probe slots h bound (next slots index) spare

/-- The slot where a probe for the key ends. -/
def probe? (slots : Array Slot) (key : Key) : Option Nat :=
  probe slots key.handle slots.size (home slots key.hash) none

/-- The slot of a key, or the slot where it belongs. A small table is looked through first. -/
def locate? (slots : Array Slot) (key : Key) : Option Nat :=
  let scanned :=
    if slots.size ≤ smallCapacity then slots.findIdx? (Slot.holds key.handle) else none
  scanned.or (probe? slots key)

/-! ## The map -/

/-- The value of a key. -/
def get? (t : Table) (key : Key) : Option Value :=
  if t.occupied = 0 then none
  else do
    let index ← locate? t.slots key
    let (_, value) ← (← t.slots[index]?).binding?
    return value

def contains (t : Table) (key : Key) : Bool := (t.get? key).isSome

/-- Put the entry of a slot where its key belongs. -/
def place (slots : Array Slot) (slot : Slot) : Array Slot :=
  match slot with
  | .live key _ =>
    match locate? slots key with
    | some index => slots.setIfInBounds index slot
    | none => slots
  | _ => slots

/-- Lay out all entries anew, in the order of the slots; no tombstone is left. -/
def rehash (t : Table) (capacity : Nat) : Table where
  occupied := t.slots.countP (·.binding?.isSome)
  tombstones := 0
  slots := t.slots.foldl place (Array.replicate capacity .vacant)

/-- Make room for one more key: if it would take more than three quarters of the slots, their
number is doubled. -/
def reserve (t : Table) : Table :=
  if t.capacity * 3 < (t.occupied + 1) * 4 then t.rehash (max (t.capacity * 2) leastCapacity) else t

/-- Set the value of a key, and tell whether the key is new. -/
def insert (t : Table) (key : Key) (value : Value) : Bool × Table :=
  let t := t.reserve
  match locate? t.slots key with
  | none => (false, t)
  | some index =>
    let slots := t.slots.setIfInBounds index (.live key value)
    match t.slots[index]? with
    | none => (false, t)
    | some .vacant => (true, { t with occupied := t.occupied + 1, slots })
    | some (.keyless _) => (true, { t with tombstones := t.tombstones - 1, slots })
    | some (.live _ _) => (false, { t with slots })

/-- Remove a key, and tell whether it was there. -/
def erase (t : Table) (key : Key) : Bool × Table :=
  if t.occupied = 0 then (false, t)
  else
    match locate? t.slots key with
    | none => (false, t)
    | some index =>
      match t.slots[index]? with
      | some (.live _ _) =>
        (true, { t with
          tombstones := t.tombstones + 1
          slots := t.slots.setIfInBounds index .tombstone })
      | _ => (false, t)

/-- Set all entries of a list, one after the other. -/
def insertAll (t : Table) (entries : List (Key × Value)) : Table :=
  entries.foldl (fun t e => (t.insert e.1 e.2).2) t

/-- Copy every entry of `source` into the table, in the order of the slots. -/
def addAll (t source : Table) : Table := t.insertAll source.entries

/-- The slot is live and its key is not kept. -/
def isDropped (keep : Handle → Bool) : Slot → Bool
  | .live key _ => !keep key.handle
  | _ => false

/-- Leave a tombstone for every key that is not kept, and give their number. -/
def eraseUnless (t : Table) (keep : Handle → Bool) : Nat × Table :=
  let dropped := t.slots.countP (isDropped keep)
  (dropped, { t with
    tombstones := t.tombstones + dropped
    slots := t.slots.map fun slot => if isDropped keep slot then .tombstone else slot })

/-! ## Looking for a text -/

/-- Walk from a slot to a key with this hash and this text, or to a vacant slot, at most `bound`
slots. The outer `none` means that neither is met. -/
def probeText (slots : Array Slot) (text : String) (hash : UInt64)
    (resolve : Handle → Option String) : (bound index : Nat) → Option (Option Key)
  | 0, _ => none
  | bound + 1, index =>
    match slots[index]? with
    | none => none
    | some .vacant => some none
    | some (.keyless _) => probeText slots text hash resolve bound (next slots index)
    | some (.live key _) =>
      if key.hash = hash ∧ resolve key.handle = some text then some (some key)
      else probeText slots text hash resolve bound (next slots index)

/-- The key with this hash whose handle stands for this text. -/
def findText? (t : Table) (text : String) (hash : UInt64) (resolve : Handle → Option String) :
    Option Key :=
  if t.occupied = 0 then none
  else (probeText t.slots text hash resolve t.slots.size (home t.slots hash)).join

/-! ## The empty table -/

@[simp] theorem get?_empty (key : Key) : empty.get? key = none := by simp [get?, empty]

@[simp] theorem entries_empty : empty.entries = [] := rfl

end Table

end ScriptMachine
