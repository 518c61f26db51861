/-
# Searching tables

Keys are searched in two ways. A probe for a handle walks from the home slot of
the key, and a small table is looked through from its first slot before that. A
probe for a text walks in the same way, but it knows no handle: it stops at the
first key that has the hash and stands for the text.

Looking a small table through would find a key wherever it lies. The probe finds
it only if no slot on the way was never used, and it finds the same copy only if
there is one copy. Both hold of every table that operations make, so the scan
changes no answer and no slot: it may be left out of all operations at once.

## Main definitions

* `Table.AnswersText` — what a search for a text answers
* `Table.Finder` — a way to find the slot of a key
* `Finder.perform`, `Finder.answers`, `Finder.performAll` — operations that find keys in this way

## Main results

* `texts_found` — a search for a text finds what is in the table
* `perform_locate?` — the operations of tables find keys by `locate?`
* `Lawful.locate?_eq_probe?` — the scan of a small table agrees with the probe
* `performAll_probe?` — no operation needs the scan
* `scan_redundant` — tables without the scan are the same tables
-/

import ScriptMachine.Proofs.Table.Slots

namespace ScriptMachine

namespace Table

variable {hash : Handle → UInt64} {t source : Table} {key : Key} {value : Value}
  {map : PlainMap}

/-- What a search for a text answers: a key of the table that has the hash and stands for the text,
or nothing, if the table has no such key. -/
def AnswersText (t : Table) (text : String) (hash : UInt64) (resolve : Handle → Option String) :
    Option Key → Prop
  | some key => (∃ v, (key, v) ∈ t.entries) ∧ key.hash = hash ∧ resolve key.handle = some text
  | none => ∀ key v, (key, v) ∈ t.entries → ¬ (key.hash = hash ∧ resolve key.handle = some text)

/-- A way to find the slot of a key, or the slot where it belongs. -/
abbrev Finder := Array Slot → Key → Option Nat

namespace Finder

variable (find : Finder)

/-! ## Operations that find keys in a given way -/

/-- The value of a key. -/
def get? (t : Table) (key : Key) : Option Value :=
  if t.occupied = 0 then none
  else do
    let index ← find t.slots key
    let (_, value) ← (← t.slots[index]?).binding?
    return value

/-- Put the entry of a slot where its key belongs. -/
def place (slots : Array Slot) (slot : Slot) : Array Slot :=
  match slot with
  | .live key _ =>
    match find slots key with
    | some index => slots.setIfInBounds index slot
    | none => slots
  | _ => slots

/-- Lay out all entries anew. -/
def rehash (t : Table) (capacity : Nat) : Table where
  occupied := t.slots.countP (·.binding?.isSome)
  tombstones := 0
  slots := t.slots.foldl find.place (Array.replicate capacity .vacant)

/-- Make room for one more key. -/
def reserve (t : Table) : Table :=
  if t.capacity * 3 < (t.occupied + 1) * 4 then
    find.rehash t (max (t.capacity * 2) leastCapacity)
  else t

/-- Set the value of a key, and tell whether the key is new. -/
def insert (t : Table) (key : Key) (value : Value) : Bool × Table :=
  let t := find.reserve t
  match find t.slots key with
  | none => (false, t)
  | some index =>
    let slots := t.slots.setIfInBounds index (.live key value)
    match t.slots[index]? with
    | none => (false, t)
    | some .vacant => (true, { t with occupied := t.occupied + 1, slots })
    | some (.keyless _) => (true, { t with tombstones := t.tombstones - 1, slots })
    | some (.live _ _) => (false, { t with slots })

/-- Remove a key, and tell whether it was there. -/
def erase (t : Table) (key : Key) : Bool × Table :=
  if t.occupied = 0 then (false, t)
  else
    match find t.slots key with
    | none => (false, t)
    | some index =>
      match t.slots[index]? with
      | some (.live _ _) =>
        (true, { t with
          tombstones := t.tombstones + 1
          slots := t.slots.setIfInBounds index .tombstone })
      | _ => (false, t)

/-- Set all entries of a list, one after the other. -/
def insertAll (t : Table) (entries : List (Key × Value)) : Table :=
  entries.foldl (fun t e => (find.insert t e.1 e.2).2) t

/-- What an operation does to tables. -/
def perform (hash : Handle → UInt64) (tables : Nat → Table) :
    Operation → Answer × (Nat → Table)
  | .insert target h v =>
    let (new, t) := find.insert (tables target) ⟨h, hash h⟩ v
    (.truth new, Function.update tables target t)
  | .get? target h => (.value (find.get? (tables target) ⟨h, hash h⟩), tables)
  | .contains target h => (.truth (find.get? (tables target) ⟨h, hash h⟩).isSome, tables)
  | .erase target h =>
    let (found, t) := find.erase (tables target) ⟨h, hash h⟩
    (.truth found, Function.update tables target t)
  | .addAll target source =>
    (.done, Function.update tables target
      (find.insertAll (tables target) (tables source).entries))
  | op => op.perform hash tables

/-- The answers that tables give to operations, one after the other. -/
def answers (hash : Handle → UInt64) (tables : Nat → Table) : List Operation → List Answer
  | [] => []
  | op :: rest =>
    (find.perform hash tables op).1 :: answers hash (find.perform hash tables op).2 rest

/-- The tables after operations. -/
def performAll (hash : Handle → UInt64) (tables : Nat → Table) (ops : List Operation) :
    Nat → Table :=
  ops.foldl (fun tables op => (find.perform hash tables op).2) tables

end Finder

/-- The operations of tables find keys by `locate?`. -/
theorem perform_locate? (hash : Handle → UInt64) (tables : Nat → Table) (op : Operation) :
    Finder.perform locate? hash tables op = op.perform hash tables := by
  cases op <;> rfl

/-! ## Searching for a text -/

theorem Lawful.answersText (lawful : t.Lawful) (text : String) (wanted : UInt64)
    (resolve : Handle → Option String) :
    t.AnswersText text wanted resolve (t.findText? text wanted resolve) := by
  cases answer : t.findText? text wanted resolve with
  | some key =>
    obtain ⟨same, resolved, mem⟩ := mem_of_findText?_eq_some answer
    exact ⟨mem, same, resolved⟩
  | none =>
    rintro key v mem ⟨same, resolved⟩
    obtain ⟨found, eq⟩ := lawful.exists_findText? mem same resolved
    rw [answer] at eq
    cases eq

/-- After any operations on tables that start empty, whatever the hashes of the handles are, every
search for a text under any hash comes to an end, in every table. It answers a key of the table that
has this hash and stands for the text, and it answers none only if the table has no such key. -/
theorem texts_found (hash : Handle → UInt64) (ops : List Operation) (i : Nat) (text : String)
    (wanted : UInt64) (resolve : Handle → Option String) :
    (performAll hash (fun _ => empty) ops i).TextSearchable text wanted resolve ∧
      (performAll hash (fun _ => empty) ops i).AnswersText text wanted resolve
        ((performAll hash (fun _ => empty) ops i).findText? text wanted resolve) := by
  obtain ⟨-, maps, represents⟩ := allAnsweredBy_answers (fun _ => Represents.empty hash) ops
  have lawful := (represents i).lawful
  exact ⟨lawful.textSearchable text wanted resolve, lawful.answersText text wanted resolve⟩

/-! ## The scan of a small table -/

/-- In slots without a copy of the handle the scan finds nothing, and in the others it comes to the
slot where the probe ends too. -/
theorem Lawful.locate?_eq_probe? (lawful : t.Lawful) (agrees : t.Agrees key) :
    locate? t.slots key = probe? t.slots key := by
  obtain ⟨i, v, found⟩ | absent := agrees.present_or_absent
  · rw [lawful.layout.locate?_of_present found, lawful.layout.probe?_of_present found]
  · have scanned : t.slots.findIdx? (Slot.holds key.handle) = none :=
      Array.findIdx?_eq_none_iff.mpr fun s mem => by simpa using absent s mem
    simp [locate?, scanned]

/-- A large table is not looked through. -/
theorem locate?_of_large {slots : Array Slot} (large : smallCapacity < slots.size) (key : Key) :
    locate? slots key = probe? slots key := by
  simp [locate?, Nat.not_le.mpr large]

theorem place_probe? {slots : Array Slot} (large : smallCapacity < slots.size) (s : Slot) :
    Finder.place probe? slots s = place slots s := by
  cases s with
  | live key value =>
    rewrite [Finder.place, place, locate?_of_large large]
    rfl
  | vacant | tombstone => rfl

theorem rehash_probe? {n : Nat} (large : smallCapacity < n) (t : Table) :
    Finder.rehash probe? t n = t.rehash n := by
  suffices fold : ∀ (rest : List Slot) (slots : Array Slot), smallCapacity < slots.size →
      rest.foldl (Finder.place probe?) slots = rest.foldl place slots by
    simp only [Finder.rehash, rehash, ← Array.foldl_toList]
    rw [fold _ _ (by simpa using large)]
  intro rest
  induction rest with
  | nil => exact fun _ _ => rfl
  | cons s rest ih =>
    intro slots large
    rw [List.foldl_cons, List.foldl_cons, place_probe? large, ih]
    simpa using large

/-- No entry is moved into a small table: the first slots are laid out for a table without any. -/
theorem Lawful.reserve_probe? (lawful : t.Lawful) : Finder.reserve probe? t = t.reserve := by
  rw [Finder.reserve, Table.reserve]
  split
  · obtain none | ⟨n, eq⟩ := lawful.layout.capacity
    · have empty : t.slots = #[] := Array.eq_empty_of_size_eq_zero none
      simp [Finder.rehash, Table.rehash, empty]
    · apply rehash_probe?
      have : 2 ^ 3 ≤ 2 ^ (n + 3) := Nat.pow_le_pow_right (by omega) (by omega)
      rw [capacity, eq, smallCapacity]
      omega
  · rfl

/-! ## Operations without the scan -/

namespace Represents

variable (represents : Represents hash t map)
include represents

theorem get?_probe? (h : Handle) :
    Finder.get? probe? t ⟨h, hash h⟩ = t.get? ⟨h, hash h⟩ := by
  rw [Finder.get?, Table.get?, represents.lawful.locate?_eq_probe? (represents.agrees h)]

theorem insert_probe? (h : Handle) (v : Value) :
    Finder.insert probe? t ⟨h, hash h⟩ v = t.insert ⟨h, hash h⟩ v := by
  obtain ⟨lawful, same, -⟩ := represents.lawful.reserve
  rewrite [Finder.insert, Table.insert, represents.lawful.reserve_probe?,
    lawful.locate?_eq_probe? (same.agrees (represents.agrees h))]
  rfl

theorem erase_probe? (h : Handle) :
    Finder.erase probe? t ⟨h, hash h⟩ = t.erase ⟨h, hash h⟩ := by
  rewrite [Finder.erase, Table.erase, represents.lawful.locate?_eq_probe? (represents.agrees h)]
  rfl

theorem insertAll_probe? {entries : List (Key × Value)}
    (hashed : ∀ e ∈ entries, e.1.hash = hash e.1.handle) :
    Finder.insertAll probe? t entries = t.insertAll entries := by
  induction entries generalizing t map with
  | nil => rfl
  | cons e entries ih =>
    obtain ⟨⟨h, _⟩, v⟩ := e
    obtain rfl : _ = hash h := hashed _ List.mem_cons_self
    rw [Finder.insertAll, Table.insertAll, List.foldl_cons, List.foldl_cons,
      represents.insert_probe? h v]
    exact ih (represents.insert h v) fun e mem => hashed e (List.mem_cons_of_mem _ mem)

end Represents

variable {tables : Nat → Table} {maps : Nat → PlainMap}

/-- No operation on tables that stand for maps needs the scan. -/
theorem perform_probe? (represents : ∀ i, Represents hash (tables i) (maps i)) (op : Operation) :
    Finder.perform probe? hash tables op = op.perform hash tables := by
  cases op with
  | insert target h v =>
    rw [Finder.perform, (represents target).insert_probe?]
    rfl
  | get? target h =>
    rw [Finder.perform, (represents target).get?_probe?]
    rfl
  | contains target h =>
    rw [Finder.perform, (represents target).get?_probe?]
    rfl
  | erase target h =>
    rw [Finder.perform, (represents target).erase_probe?]
    rfl
  | addAll target source =>
    rw [Finder.perform, (represents target).insertAll_probe? fun e mem =>
      (((represents source).mem e.1 e.2).mp mem).1]
    rfl
  | isEmpty | size | entries | copy | eraseUnless => rfl

/-- Tables that stand for maps give the same answers without the scan, and become the same tables. -/
theorem performAll_probe? (represents : ∀ i, Represents hash (tables i) (maps i))
    (ops : List Operation) :
    Finder.answers probe? hash tables ops = answers hash tables ops ∧
      Finder.performAll probe? hash tables ops = performAll hash tables ops := by
  induction ops generalizing tables maps with
  | nil => exact ⟨rfl, rfl⟩
  | cons op ops ih =>
    obtain ⟨answered, after⟩ := ih (represents_perform represents op)
    rw [Finder.answers, answers, Finder.performAll, performAll, List.foldl_cons, List.foldl_cons,
      perform_probe? represents]
    exact ⟨congrArg _ answered, after⟩

/-- After any operations on tables that start empty, whatever the hashes of the handles are, a key
is found in the same slot with and without the scan of small tables, whether it is there or not, in
every table that has slots. So tables whose operations do not look them through give the same
answers, and their slots and counters are the same. -/
theorem scan_redundant (hash : Handle → UInt64) (ops : List Operation) :
    (∀ i h, (performAll hash (fun _ => empty) ops i).capacity = 0 ∨
      ∃ index < (performAll hash (fun _ => empty) ops i).capacity,
        locate? (performAll hash (fun _ => empty) ops i).slots ⟨h, hash h⟩ = some index ∧
          probe? (performAll hash (fun _ => empty) ops i).slots ⟨h, hash h⟩ = some index) ∧
      Finder.answers probe? hash (fun _ => empty) ops = answers hash (fun _ => empty) ops ∧
      Finder.performAll probe? hash (fun _ => empty) ops =
        performAll hash (fun _ => empty) ops := by
  obtain ⟨-, maps, represents⟩ := allAnsweredBy_answers (fun _ => Represents.empty hash) ops
  refine ⟨fun i h => ?_, performAll_probe? (fun _ => Represents.empty hash) ops⟩
  have lawful := (represents i).lawful
  have agrees := (represents i).agrees h
  obtain none | room := Nat.eq_zero_or_pos (performAll hash (fun _ => empty) ops i).capacity
  · exact .inl none
  · obtain ⟨index, inside, eq⟩ := lawful.exists_locate? agrees room
    exact .inr ⟨index, inside, eq, (lawful.locate?_eq_probe? agrees).symm.trans eq⟩

end Table

end ScriptMachine
