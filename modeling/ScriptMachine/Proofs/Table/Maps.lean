/-
# Tables answer as maps

A plain map from handles to values has no slots, no hashes and no tombstones:
setting a key, removing it, copying and filtering are what they are for
functions. Any number of tables that start empty and any number of plain maps
that start empty answer every sequence of operations alike, whatever the hashes
of the handles are, even if all of them are equal.

A plain map has no order either. Listing a table gives each binding of the map
once, in some order.

## Main definitions

* `Table.PlainMap` — a map without slots
* `Table.Operation`, `Operation.perform`, `Operation.effect` — operations, on tables and on maps
* `Operation.AnsweredBy` — the answer that a map gives
* `Table.Represents` — a table stands for a map

## Main results

* `Represents.insert`, `Represents.erase`, … — what the operations do to the map
* `answers_as_maps` — tables and maps answer alike
-/

import ScriptMachine.Proofs.Table.Lawful

namespace ScriptMachine

namespace Table

variable {hash : Handle → UInt64} {t source : Table} {h : Handle} {v : Value}

/-- A map from handles to values, without slots. -/
abbrev PlainMap := Handle → Option Value

/-- An operation on numbered tables, or on numbered maps. -/
inductive Operation
  | insert (target : Nat) (h : Handle) (v : Value)
  | get? (target : Nat) (h : Handle)
  | contains (target : Nat) (h : Handle)
  | erase (target : Nat) (h : Handle)
  | isEmpty (target : Nat)
  | size (target : Nat)
  | entries (target : Nat)
  /-- Copy every binding of one into the other. -/
  | addAll (target source : Nat)
  /-- Let one become a copy of the other. -/
  | copy (target source : Nat)
  /-- Remove every key that is not kept. -/
  | eraseUnless (target : Nat) (keep : Handle → Bool)

/-- What an operation answers. -/
inductive Answer
  | truth (b : Bool)
  | value (v : Option Value)
  | count (n : Nat)
  | listing (entries : List (Key × Value))
  | done

namespace Operation

/-- What an operation does to tables, if the hashes of the handles are these. -/
def perform (hash : Handle → UInt64) (tables : Nat → Table) : Operation → Answer × (Nat → Table)
  | insert target h v =>
    let (new, t) := (tables target).insert ⟨h, hash h⟩ v
    (.truth new, Function.update tables target t)
  | get? target h => (.value ((tables target).get? ⟨h, hash h⟩), tables)
  | contains target h => (.truth ((tables target).contains ⟨h, hash h⟩), tables)
  | erase target h =>
    let (found, t) := (tables target).erase ⟨h, hash h⟩
    (.truth found, Function.update tables target t)
  | isEmpty target => (.truth (tables target).isEmpty, tables)
  | size target => (.count (tables target).size, tables)
  | entries target => (.listing (tables target).entries, tables)
  | addAll target source =>
    (.done, Function.update tables target ((tables target).addAll (tables source)))
  | copy target source => (.done, Function.update tables target (tables source))
  | eraseUnless target keep =>
    let (dropped, t) := (tables target).eraseUnless keep
    (.count dropped, Function.update tables target t)

/-- What an operation does to maps. -/
def effect (maps : Nat → PlainMap) : Operation → Nat → PlainMap
  | insert target h v => Function.update maps target (Function.update (maps target) h (some v))
  | erase target h => Function.update maps target (Function.update (maps target) h none)
  | addAll target source =>
    Function.update maps target fun h => (maps source h).or (maps target h)
  | copy target source => Function.update maps target (maps source)
  | eraseUnless target keep =>
    Function.update maps target fun h => if keep h then maps target h else none
  | get? _ _ | contains _ _ | isEmpty _ | size _ | entries _ => maps

/-- The answer is that of the maps. -/
def AnsweredBy (hash : Handle → UInt64) (maps : Nat → PlainMap) : Operation → Answer → Prop
  | insert target h _, .truth new => new ↔ maps target h = none
  | get? target h, .value v => v = maps target h
  | contains target h, .truth found => found ↔ maps target h ≠ none
  | erase target h, .truth found => found ↔ maps target h ≠ none
  | isEmpty target, .truth empty => empty ↔ ∀ h, maps target h = none
  | size target, .count n => n = {h | maps target h ≠ none}.ncard
  | entries target, .listing bindings =>
    bindings.Nodup ∧ ∀ key v, (key, v) ∈ bindings ↔
      key.hash = hash key.handle ∧ maps target key.handle = some v
  | eraseUnless target keep, .count n => n = {h | maps target h ≠ none ∧ keep h = false}.ncard
  | addAll _ _, .done | copy _ _, .done => True
  | _, _ => False

end Operation

/-- The answers that tables give to operations, one after the other. -/
def answers (hash : Handle → UInt64) (tables : Nat → Table) : List Operation → List Answer
  | [] => []
  | op :: rest => (op.perform hash tables).1 :: answers hash (op.perform hash tables).2 rest

/-- The tables after operations. -/
def performAll (hash : Handle → UInt64) (tables : Nat → Table) (ops : List Operation) :
    Nat → Table :=
  ops.foldl (fun tables op => (op.perform hash tables).2) tables

/-- The answers to the operations, one after the other, are those of the maps. -/
def AllAnsweredBy (hash : Handle → UInt64) (maps : Nat → PlainMap) :
    List Operation → List Answer → Prop
  | [], [] => True
  | op :: ops, answer :: rest =>
    op.AnsweredBy hash maps answer ∧ AllAnsweredBy hash (op.effect maps) ops rest
  | _, _ => False

/-! ## Standing for a map -/

/-- The entries of the table are the bindings of the map, under the hashes of their handles. -/
structure Represents (hash : Handle → UInt64) (t : Table) (map : PlainMap) : Prop where
  lawful : t.Lawful
  mem : ∀ key v, (key, v) ∈ t.entries ↔ key.hash = hash key.handle ∧ map key.handle = some v

namespace Represents

variable {map map' : PlainMap}

theorem empty (hash : Handle → UInt64) : Represents hash .empty fun _ => none :=
  ⟨lawful_empty, by simp⟩

theorem agrees (represents : Represents hash t map) (h : Handle) : t.Agrees ⟨h, hash h⟩ := by
  rintro key v mem rfl
  rw [← ((represents.mem key v).mp mem).1]

theorem mem_iff (represents : Represents hash t map) :
    (⟨h, hash h⟩, v) ∈ t.entries ↔ map h = some v := by
  simp [represents.mem]

theorem forall_notMem_iff (represents : Represents hash t map) :
    (∀ v, (⟨h, hash h⟩, v) ∉ t.entries) ↔ map h = none := by
  simp only [represents.mem_iff, Option.eq_none_iff_forall_ne_some, ne_eq]

theorem get?_eq (represents : Represents hash t map) (h : Handle) :
    t.get? ⟨h, hash h⟩ = map h := by
  ext v
  rw [represents.lawful.get?_eq_some_iff (represents.agrees h), represents.mem_iff]

theorem insert (represents : Represents hash t map) (h : Handle) (v : Value) :
    Represents hash (t.insert ⟨h, hash h⟩ v).2 (Function.update map h (some v)) := by
  refine ⟨represents.lawful.insert (represents.agrees h), fun key w => ?_⟩
  rw [represents.lawful.mem_entries_insert_iff (represents.agrees h), represents.mem]
  by_cases same : key.handle = h
  · obtain ⟨k, n⟩ := key
    simp_all [eq_comm]
  · have : key ≠ ⟨h, hash h⟩ := fun eq => same (by rw [eq])
    simp [same, this]

theorem insert_fst_iff (represents : Represents hash t map) (h : Handle) (v : Value) :
    (t.insert ⟨h, hash h⟩ v).1 ↔ map h = none := by
  rw [represents.lawful.insert_fst_iff (represents.agrees h), represents.forall_notMem_iff]

theorem erase (represents : Represents hash t map) (h : Handle) :
    Represents hash (t.erase ⟨h, hash h⟩).2 (Function.update map h none) := by
  refine ⟨represents.lawful.erase (represents.agrees h), fun key w => ?_⟩
  rw [represents.lawful.mem_entries_erase_iff (represents.agrees h), represents.mem]
  by_cases same : key.handle = h <;> simp [same]

theorem erase_fst_iff (represents : Represents hash t map) (h : Handle) :
    (t.erase ⟨h, hash h⟩).1 ↔ map h ≠ none := by
  rw [(represents.lawful.erases (represents.agrees h)).found, ne_eq,
    ← represents.forall_notMem_iff]
  push Not
  rfl

/-- The bindings of the source win. -/
theorem addAll (represents : Represents hash t map) (represents' : Represents hash source map') :
    Represents hash (t.addAll source) fun h => (map' h).or (map h) := by
  -- A key of the source agrees with the table, as both hash it alike.
  obtain ⟨lawful, mem⟩ := represents.lawful.addAll represents'.lawful fun e mem => by
    have hashed := ((represents'.mem e.1 e.2).mp mem).1
    have agrees := represents.agrees e.1.handle
    rwa [← hashed] at agrees
  refine ⟨lawful, fun key v => ?_⟩
  rw [mem, represents.mem]
  simp only [represents'.mem]
  cases bound : map' key.handle <;> simp [and_comm]
  tauto

theorem eraseUnless (represents : Represents hash t map) (keep : Handle → Bool) :
    Represents hash (t.eraseUnless keep).2 fun h => if keep h then map h else none := by
  refine ⟨represents.lawful.eraseUnless keep, fun key v => ?_⟩
  rw [mem_entries_eraseUnless_iff, represents.mem]
  by_cases kept : keep key.handle <;> simp [kept]

/-! ## Counting and listing -/

/-- Entries are counted as bindings are. -/
theorem ncard_eq (represents : Represents hash t map) (p : Handle → Bool) :
    {h | map h ≠ none ∧ p h}.ncard = t.entries.countP (p ·.1.handle) := by
  have bound (h : Handle) : map h ≠ none ↔ ∃ e ∈ t.entries, e.1.handle = h := by
    rw [Option.ne_none_iff_exists']
    constructor
    · rintro ⟨v, bound⟩
      exact ⟨(⟨h, hash h⟩, v), represents.mem_iff.mpr bound, rfl⟩
    · rintro ⟨⟨key, v⟩, mem, rfl⟩
      exact ⟨v, ((represents.mem key v).mp mem).2⟩
  simp only [bound]
  exact represents.lawful.ncard_handles p

theorem size_eq (represents : Represents hash t map) : t.size = {h | map h ≠ none}.ncard := by
  have counted := represents.ncard_eq fun _ => true
  simp only [and_true, List.countP_true] at counted
  rw [counted, represents.lawful.size_eq]

theorem isEmpty_iff (represents : Represents hash t map) :
    t.isEmpty ↔ ∀ h, map h = none := by
  rw [isEmpty, beq_iff_eq, represents.lawful.size_eq, List.length_eq_zero_iff,
    List.eq_nil_iff_forall_not_mem]
  constructor
  · intro none h
    exact represents.forall_notMem_iff.mp fun v => none _
  · rintro none ⟨key, v⟩ mem
    have := ((represents.mem key v).mp mem).2
    rw [none] at this
    cases this

end Represents

/-! ## Operations -/

/-- Replacing a table and a map by others that stand for each other. -/
theorem represents_update {tables : Nat → Table} {maps : Nat → PlainMap} {map : PlainMap}
    (represents : ∀ i, Represents hash (tables i) (maps i)) (target : Nat)
    (new : Represents hash t map) (i : Nat) :
    Represents hash (Function.update tables target t i) (Function.update maps target map i) := by
  by_cases eq : i = target
  · subst eq
    simpa using new
  · simpa [eq] using represents i

variable {tables : Nat → Table} {maps : Nat → PlainMap}

/-- Tables that stand for maps do so after an operation. -/
theorem represents_perform (represents : ∀ i, Represents hash (tables i) (maps i))
    (op : Operation) (i : Nat) :
    Represents hash ((op.perform hash tables).2 i) (op.effect maps i) := by
  cases op with
  | insert target h v => exact represents_update represents target ((represents _).insert h v) i
  | erase target h => exact represents_update represents target ((represents _).erase h) i
  | addAll target source =>
    exact represents_update represents target ((represents target).addAll (represents source)) i
  | copy target source => exact represents_update represents target (represents source) i
  | eraseUnless target keep =>
    exact represents_update represents target ((represents target).eraseUnless keep) i
  | get? | contains | isEmpty | size | entries => exact represents i

/-- Tables that stand for maps answer as the maps do. -/
theorem answeredBy_perform (represents : ∀ i, Represents hash (tables i) (maps i))
    (op : Operation) : op.AnsweredBy hash maps (op.perform hash tables).1 := by
  cases op with
  | insert target h v => exact (represents target).insert_fst_iff h v
  | get? target h => exact (represents target).get?_eq h
  | contains target h =>
    change (tables target).contains ⟨h, hash h⟩ ↔ _
    rw [contains, (represents target).get?_eq, Option.isSome_iff_ne_none]
  | erase target h => exact (represents target).erase_fst_iff h
  | isEmpty target => exact (represents target).isEmpty_iff
  | size target => exact (represents target).size_eq
  | entries target =>
    exact ⟨.of_map _ (represents target).lawful.nodup_handles, (represents target).mem⟩
  | addAll | copy => trivial
  | eraseUnless target keep =>
    have counted := (represents target).ncard_eq (!keep ·)
    simp only [Bool.not_eq_true'] at counted
    exact (eraseUnless_fst (tables target) keep).trans counted.symm

theorem allAnsweredBy_answers (represents : ∀ i, Represents hash (tables i) (maps i))
    (ops : List Operation) :
    AllAnsweredBy hash maps ops (answers hash tables ops) ∧
      ∃ maps' : Nat → PlainMap, ∀ i, Represents hash (performAll hash tables ops i) (maps' i) := by
  induction ops generalizing tables maps with
  | nil => exact ⟨trivial, maps, represents⟩
  | cons op ops ih =>
    obtain ⟨answered, after⟩ := ih (represents_perform represents op)
    exact ⟨⟨answeredBy_perform represents op, answered⟩, after⟩

/-- Tables that start empty answer all operations as plain maps that start empty do, whatever the
hashes of the handles are: whether a key was new or was there, the value that was set last and not
removed since, the bindings, each once, their number, and the number of those removed. No search
for a key goes on for ever in any of the tables. -/
theorem answers_as_maps (hash : Handle → UInt64) (ops : List Operation) :
    AllAnsweredBy hash (fun _ _ => none) ops (answers hash (fun _ => empty) ops) ∧
      ∀ i h, (performAll hash (fun _ => empty) ops i).Searchable ⟨h, hash h⟩ := by
  obtain ⟨answered, maps, represents⟩ :=
    allAnsweredBy_answers (fun _ => Represents.empty hash) ops
  exact ⟨answered, fun i h => (represents i).lawful.searchable ((represents i).agrees h)⟩

end Table

end ScriptMachine
