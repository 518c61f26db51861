/-
# Matching values and objects

Two machines may give different handles to objects that are alike. A pairing
says which handles of one machine stand for which handles of the other. Values
match if they are equal up to the pairing, and so do objects that refer to
paired handles in the same places. Tables match if they bind paired keys to
matching values; where the bindings lie in the tables does not matter.

## Main definitions

* `Pairing`, `Pairing.OneToOne` — which handles stand for each other
* `Pointwise` — arrays whose elements are related one by one
* `Value.Matches`, `Table.Matches`, `Object.Matches` — equal up to a pairing

## Main results

* `Object.Matches.imp` — only the references of objects matter
* `Table.Twins.get?` — tables that match look up alike
-/

import Mathlib.Data.List.Forall2
import ScriptMachine.Machine.Run
import ScriptMachine.Proofs.Table.Lawful

namespace ScriptMachine

/-- Which handles of two heaps stand for each other. -/
abbrev Pairing := Handle → Handle → Prop

/-- No handle stands for two others. -/
structure Pairing.OneToOne (p : Pairing) : Prop where
  right : ∀ h k k', p h k → p h k' → k = k'
  left : ∀ h h' k, p h k → p h' k → h = h'

/-- The pairing with one more pair. -/
def Pairing.join (p : Pairing) (h k : Handle) : Pairing :=
  fun h' k' => p h' k' ∨ h' = h ∧ k' = k

theorem Pairing.OneToOne.flip {p : Pairing} (unique : p.OneToOne) :
    Pairing.OneToOne (flip p) :=
  ⟨fun k h h' paired paired' => unique.left h h' k paired paired',
    fun k k' h paired paired' => unique.right h k k' paired paired'⟩

/-! ## Arrays -/

/-- The elements of two arrays are related one by one. -/
structure Pointwise {α β : Type} (r : α → β → Prop) (xs : Array α) (ys : Array β) : Prop where
  size : xs.size = ys.size
  get : ∀ (i : Nat) (x : α) (y : β), xs[i]? = some x → ys[i]? = some y → r x y

namespace Pointwise

variable {α β : Type} {r s : α → β → Prop} {xs : Array α} {ys : Array β} {x : α} {y : β}

theorem empty (r : α → β → Prop) : Pointwise r #[] #[] := ⟨rfl, fun i x y found => by simp at found⟩

theorem imp (related : Pointwise r xs ys) (le : ∀ x ∈ xs, ∀ y ∈ ys, r x y → s x y) :
    Pointwise s xs ys :=
  ⟨related.size, fun i x y found found' => le x (Array.mem_of_getElem? found) y
    (Array.mem_of_getElem? found') (related.get i x y found found')⟩

theorem exists_right (related : Pointwise r xs ys) (mem : x ∈ xs) : ∃ y, r x y := by
  obtain ⟨i, inside, eq⟩ := Array.mem_iff_getElem.mp mem
  have inside' : i < ys.size := related.size ▸ inside
  exact ⟨ys[i], related.get i x ys[i] (Array.getElem?_eq_some_iff.mpr ⟨inside, eq⟩)
    (Array.getElem?_eq_getElem inside')⟩

theorem exists_left (related : Pointwise r xs ys) (mem : y ∈ ys) : ∃ x, r x y := by
  obtain ⟨i, inside, eq⟩ := Array.mem_iff_getElem.mp mem
  have inside' : i < xs.size := related.size ▸ inside
  exact ⟨xs[i], related.get i xs[i] y (Array.getElem?_eq_getElem inside')
    (Array.getElem?_eq_some_iff.mpr ⟨inside, eq⟩)⟩

theorem getElem? (related : Pointwise r xs ys) (i : Nat) : Option.Rel r xs[i]? ys[i]? := by
  by_cases inside : i < xs.size
  · have inside' : i < ys.size := related.size ▸ inside
    rw [Array.getElem?_eq_getElem inside, Array.getElem?_eq_getElem inside']
    exact .some (related.get i _ _ (Array.getElem?_eq_getElem inside)
      (Array.getElem?_eq_getElem inside'))
  · rw [Array.getElem?_eq_none (by omega), Array.getElem?_eq_none (by have := related.size; omega)]
    exact .none

theorem push (related : Pointwise r xs ys) (same : r x y) :
    Pointwise r (xs.push x) (ys.push y) := by
  refine ⟨by rw [Array.size_push, Array.size_push, related.size], fun i a b found found' => ?_⟩
  rw [Array.getElem?_push] at found found'
  rw [related.size] at found
  by_cases last : i = ys.size
  · rw [if_pos last] at found found'
    obtain rfl := Option.some.inj found
    obtain rfl := Option.some.inj found'
    exact same
  · rw [if_neg last] at found found'
    exact related.get i a b found found'

theorem pop (related : Pointwise r xs ys) : Pointwise r xs.pop ys.pop := by
  refine ⟨by rw [Array.size_pop, Array.size_pop, related.size], fun i a b found found' => ?_⟩
  rw [Array.getElem?_pop] at found found'
  split at found
  · split at found'
    · exact related.get i a b found found'
    · cases found'
  · cases found

theorem extract (related : Pointwise r xs ys) (start stop : Nat) :
    Pointwise r (xs.extract start stop) (ys.extract start stop) := by
  refine ⟨by rw [Array.size_extract, Array.size_extract, related.size],
    fun i a b found found' => ?_⟩
  rw [Array.getElem?_extract] at found found'
  split at found
  · split at found'
    · exact related.get (start + i) a b found found'
    · cases found'
  · cases found

theorem take (related : Pointwise r xs ys) (n : Nat) : Pointwise r (xs.take n) (ys.take n) := by
  rw [Array.take_eq_extract, Array.take_eq_extract]
  exact related.extract 0 n

theorem setIfInBounds (related : Pointwise r xs ys) (i : Nat) (same : r x y) :
    Pointwise r (xs.setIfInBounds i x) (ys.setIfInBounds i y) := by
  refine ⟨by simp only [Array.size_setIfInBounds, related.size], fun j a b found found' => ?_⟩
  rw [Array.getElem?_setIfInBounds] at found found'
  by_cases here : i = j
  · rw [if_pos here] at found found'
    split at found
    · split at found'
      · obtain rfl := Option.some.inj found
        obtain rfl := Option.some.inj found'
        exact same
      · cases found'
    · cases found
  · rw [if_neg here] at found found'
    exact related.get j a b found found'

end Pointwise

/-! ## Values and keys -/

/-- The values are equal up to the pairing. -/
inductive Value.Matches (p : Pairing) : Value → Value → Prop
  | nil : Matches p .nil .nil
  | bool (b : Bool) : Matches p (.bool b) (.bool b)
  | number (n : Number) : Matches p (.number n) (.number n)
  | object {h k : Handle} (paired : p h k) : Matches p (.object h) (.object k)

/-- The keys are equal up to the pairing. -/
structure Key.Matches (p : Pairing) (key key' : Key) : Prop where
  handle : p key.handle key'.handle
  hash : key.hash = key'.hash

variable {p q : Pairing}

theorem Value.Matches.imp {v w : Value} (same : v.Matches p w)
    (le : ∀ h k, v.handle? = some h → w.handle? = some k → p h k → q h k) : v.Matches q w := by
  cases same with
  | nil => exact .nil
  | bool b => exact .bool b
  | number n => exact .number n
  | object paired => exact .object (le _ _ rfl rfl paired)

theorem Value.Matches.flip {v w : Value} (same : v.Matches p w) : w.Matches (flip p) v := by
  cases same with
  | nil => exact .nil
  | bool b => exact .bool b
  | number n => exact .number n
  | object paired => exact .object paired

theorem Value.Matches.handle? {v w : Value} (same : v.Matches p w) :
    Option.Rel p v.handle? w.handle? := by
  cases same with
  | nil | bool | number => exact .none
  | object paired => exact .some paired

theorem Value.Matches.isFalsey {v w : Value} (same : v.Matches p w) : v.isFalsey = w.isFalsey := by
  cases same <;> rfl

/-- Matching values are equal to each other for the scripts as their partners are. -/
theorem Value.Matches.equal {v w v' w' : Value} (unique : p.OneToOne) (same : v.Matches p w)
    (same' : v'.Matches p w') : v.equal v' = w.equal w' := by
  cases same <;> cases same' <;> first | rfl | skip
  next h k paired h' k' paired' =>
    have iff : h = h' ↔ k = k' := by
      constructor
      · rintro rfl
        exact unique.right h k k' paired paired'
      · rintro rfl
        exact unique.left h h' k paired paired'
    simp only [Value.equal, beq_eq_decide, iff]

/-- The host function is a function of its arguments alone, and does not look at handles. -/
def Native.Respects (native : Native) : Prop :=
  ∀ p : Pairing, p.OneToOne → ∀ uptime uptime' arguments arguments',
    Pointwise (Value.Matches p) arguments arguments' →
      (native.apply uptime arguments).Matches p (native.apply uptime' arguments')

/-! ## Tables -/

/-- Each binding of the table has a partner in the other. -/
def Table.Covers (p : Pairing) (t s : Table) : Prop :=
  ∀ key v, (key, v) ∈ t.entries →
    ∃ key' w, (key', w) ∈ s.entries ∧ key.Matches p key' ∧ v.Matches p w

/-- The bindings of the tables are equal up to the pairing. -/
structure Table.Matches (p : Pairing) (t s : Table) : Prop where
  covers : t.Covers p s
  covered : s.Covers (flip p) t

theorem Table.Matches.flip {t s : Table} (same : t.Matches p s) : s.Matches (flip p) t :=
  ⟨same.covered, same.covers⟩

theorem Table.Covers.imp {t s : Table} (covers : t.Covers p s)
    (le : ∀ h ∈ Object.tableReferences t, ∀ k ∈ Object.tableReferences s, p h k → q h k) :
    t.Covers q s := by
  have listed {t : Table} {key : Key} {v : Value} (mem : (key, v) ∈ t.entries) {h : Handle}
      (here : h ∈ key.handle :: v.handle?.toList) : h ∈ Object.tableReferences t :=
    List.mem_flatMap.mpr ⟨(key, v), mem, here⟩
  intro key v mem
  obtain ⟨key', w, mem', same, same'⟩ := covers key v mem
  refine ⟨key', w, mem', ⟨?_, same.hash⟩, same'.imp fun h k eq eq' => ?_⟩
  · exact le _ (listed mem List.mem_cons_self) _ (listed mem' List.mem_cons_self) same.handle
  · exact le h (listed mem (List.mem_cons_of_mem _ (Option.mem_toList.mpr eq))) k
      (listed mem' (List.mem_cons_of_mem _ (Option.mem_toList.mpr eq')))

theorem Table.Matches.imp {t s : Table} (same : t.Matches p s)
    (le : ∀ h ∈ Object.tableReferences t, ∀ k ∈ Object.tableReferences s, p h k → q h k) :
    t.Matches q s :=
  ⟨same.covers.imp le, same.covered.imp fun k mem h mem' => le h mem' k mem⟩

theorem Table.Matches.empty (p : Pairing) : Table.empty.Matches p .empty :=
  ⟨fun _ _ mem => by simp at mem, fun _ _ mem => by simp at mem⟩

/-- Matching tables that can be searched, and a pairing that tells their keys apart. -/
structure Table.Twins (p : Pairing) (t s : Table) : Prop extends t.Matches p s where
  unique : p.OneToOne
  lawful : t.Lawful
  lawful' : s.Lawful

/-- Matching keys that can be looked for in the tables. -/
structure Key.Twins (p : Pairing) (t s : Table) (key key' : Key) : Prop
    extends key.Matches p key' where
  agrees : t.Agrees key
  agrees' : s.Agrees key'

section

variable {t s source source' : Table} {key key' : Key} {v w : Value}

theorem Table.Twins.flip (twins : Table.Twins p t s) : Table.Twins (flip p) s t :=
  ⟨twins.toMatches.flip, twins.unique.flip, twins.lawful', twins.lawful⟩

theorem Key.Twins.flip (keys : Key.Twins p t s key key') : Key.Twins (flip p) s t key' key :=
  ⟨⟨keys.handle, keys.hash.symm⟩, keys.agrees', keys.agrees⟩

/-- A key is bound in a table if its partner is bound in the other. -/
theorem Table.Twins.bound (twins : Table.Twins p t s) (keys : Key.Twins p t s key key')
    (mem : (key, v) ∈ t.entries) : ∃ w, (key', w) ∈ s.entries ∧ v.Matches p w := by
  obtain ⟨k, w, mem', same, same'⟩ := twins.covers key v mem
  have eq := twins.unique.right _ _ _ same.handle keys.handle
  obtain rfl := keys.agrees' k w mem' eq
  exact ⟨w, mem', same'⟩

theorem Table.Twins.get? (twins : Table.Twins p t s) (keys : Key.Twins p t s key key') :
    Option.Rel (Value.Matches p) (t.get? key) (s.get? key') := by
  cases found : t.get? key with
  | some v =>
    have mem := (twins.lawful.get?_eq_some_iff keys.agrees).mp found
    obtain ⟨w, mem', same⟩ := twins.bound keys mem
    rw [(twins.lawful'.get?_eq_some_iff keys.agrees').mpr mem']
    exact .some same
  | none =>
    cases found' : s.get? key' with
    | none => exact .none
    | some w =>
      have mem := (twins.lawful'.get?_eq_some_iff keys.agrees').mp found'
      obtain ⟨v, mem', -⟩ := twins.flip.bound keys.flip mem
      rw [(twins.lawful.get?_eq_some_iff keys.agrees).mpr mem'] at found
      cases found

/-- Keys other than paired ones are paired with others. -/
theorem Table.Twins.other {k k' : Key} (twins : Table.Twins p t s)
    (keys : Key.Twins p t s key key') (named : k.Matches p k') (other : k.handle ≠ key.handle) :
    k'.handle ≠ key'.handle := by
  intro eq
  exact other (twins.unique.left _ _ _ (eq ▸ named.handle) keys.handle)

theorem Table.Twins.covers_insert (twins : Table.Twins p t s) (keys : Key.Twins p t s key key')
    (same : v.Matches p w) : (t.insert key v).2.Covers p (s.insert key' w).2 := by
  intro k x mem
  rcases (twins.lawful.mem_entries_insert_iff keys.agrees).mp mem with ⟨rfl, rfl⟩ | ⟨other, mem⟩
  · exact ⟨key', w, (twins.lawful'.mem_entries_insert_iff keys.agrees').mpr (.inl ⟨rfl, rfl⟩),
      keys.toMatches, same⟩
  · obtain ⟨k', y, mem', named, same'⟩ := twins.covers k x mem
    exact ⟨k', y, (twins.lawful'.mem_entries_insert_iff keys.agrees').mpr
      (.inr ⟨twins.other keys named other, mem'⟩), named, same'⟩

theorem Table.Twins.insert (twins : Table.Twins p t s) (keys : Key.Twins p t s key key')
    (same : v.Matches p w) : (t.insert key v).2.Matches p (s.insert key' w).2 :=
  ⟨twins.covers_insert keys same, twins.flip.covers_insert keys.flip same.flip⟩

/-- A key is new to a table if its partner is new to the other. -/
theorem Table.Twins.insert_fst (twins : Table.Twins p t s) (keys : Key.Twins p t s key key')
    (v w : Value) : (t.insert key v).1 = (s.insert key' w).1 := by
  rw [Bool.eq_iff_iff, twins.lawful.insert_fst_iff keys.agrees,
    twins.lawful'.insert_fst_iff keys.agrees']
  constructor
  · intro new x mem
    obtain ⟨y, mem', -⟩ := twins.flip.bound keys.flip mem
    exact new y mem'
  · intro new x mem
    obtain ⟨y, mem', -⟩ := twins.bound keys mem
    exact new y mem'

theorem Table.Twins.covers_erase (twins : Table.Twins p t s) (keys : Key.Twins p t s key key') :
    (t.erase key).2.Covers p (s.erase key').2 := by
  intro k x mem
  obtain ⟨other, mem⟩ := (twins.lawful.mem_entries_erase_iff keys.agrees).mp mem
  obtain ⟨k', y, mem', named, same⟩ := twins.covers k x mem
  exact ⟨k', y, (twins.lawful'.mem_entries_erase_iff keys.agrees').mpr
    ⟨twins.other keys named other, mem'⟩, named, same⟩

theorem Table.Twins.erase (twins : Table.Twins p t s) (keys : Key.Twins p t s key key') :
    (t.erase key).2.Matches p (s.erase key').2 :=
  ⟨twins.covers_erase keys, twins.flip.covers_erase keys.flip⟩

theorem Table.Twins.covers_addAll (twins : Table.Twins p t s)
    (inherited : Table.Twins p source source') (agrees : ∀ e ∈ source.entries, t.Agrees e.1)
    (agrees' : ∀ e ∈ source'.entries, s.Agrees e.1) :
    (t.addAll source).Covers p (s.addAll source') := by
  obtain ⟨-, mem_iff⟩ := twins.lawful.addAll inherited.lawful agrees
  obtain ⟨-, mem_iff'⟩ := twins.lawful'.addAll inherited.lawful' agrees'
  intro k x mem
  rcases (mem_iff k x).mp mem with mem | ⟨mem, absent⟩
  · obtain ⟨k', y, mem', named, same⟩ := inherited.covers k x mem
    exact ⟨k', y, (mem_iff' k' y).mpr (.inl mem'), named, same⟩
  · obtain ⟨k', y, mem', named, same⟩ := twins.covers k x mem
    refine ⟨k', y, (mem_iff' k' y).mpr (.inr ⟨mem', fun z inherits => ?_⟩), named, same⟩
    -- The partner of an inherited key is inherited, and it is the key itself.
    obtain ⟨k'', z', mem'', named', -⟩ := inherited.covered k' z inherits
    have eq : k.handle = k''.handle := twins.unique.left _ _ _ named.handle named'.handle
    obtain rfl := agrees _ mem'' k x mem eq
    exact absent z' mem''

theorem Table.Twins.addAll (twins : Table.Twins p t s) (inherited : Table.Twins p source source')
    (agrees : ∀ e ∈ source.entries, t.Agrees e.1) (agrees' : ∀ e ∈ source'.entries, s.Agrees e.1) :
    (t.addAll source).Matches p (s.addAll source') :=
  ⟨twins.covers_addAll inherited agrees agrees',
    twins.flip.covers_addAll inherited.flip agrees' agrees⟩

end

/-! ## Objects -/

/-- The chunks have the same code, and constants that match. -/
structure Chunk.Matches (p : Pairing) (c d : Chunk Value) : Prop where
  code : c.code = d.code
  lines : c.lines = d.lines
  constants : Pointwise (Value.Matches p) c.constants d.constants

/-- The functions are equal up to the pairing. -/
structure Function.Matches (p : Pairing) (f g : Function) : Prop where
  name : Option.Rel p f.name g.name
  arity : f.arity = g.arity
  captureCount : f.captureCount = g.captureCount
  chunk : f.chunk.Matches p g.chunk

/-- The objects are equal up to the pairing, apart from the places that closures reserve. -/
inductive Object.Matches (p : Pairing) : Object → Object → Prop
  | string {s s' : HashedText} (text : s.text = s'.text) : Matches p (.string s) (.string s')
  | function {f g : Function} (same : f.Matches p g) : Matches p (.function f) (.function g)
  | closure {f g : Handle} {us ws : Array Handle} {reserved reserved' : Nat} (function : p f g)
    (captured : Pointwise p us ws) : Matches p (.closure f us reserved) (.closure g ws reserved')
  | opened (slot : Nat) : Matches p (.upvalue (.opened slot)) (.upvalue (.opened slot))
  | closed {v w : Value} (same : v.Matches p w) :
    Matches p (.upvalue (.closed v)) (.upvalue (.closed w))
  | cls {name name' : Handle} {methods methods' : Table} (named : p name name')
    (same : methods.Matches p methods') : Matches p (.cls name methods) (.cls name' methods')
  | inst {owner owner' : Handle} {fields fields' : Table} (owned : p owner owner')
    (same : fields.Matches p fields') : Matches p (.inst owner fields) (.inst owner' fields')
  | bound {v w : Value} {method method' : Handle} (receiver : v.Matches p w)
    (paired : p method method') : Matches p (.bound v method) (.bound w method')
  | native (n : Native) : Matches p (.native n) (.native n)

/-- Another pairing will do if it pairs what the objects refer to. -/
theorem Object.Matches.imp {o o' : Object} (same : o.Matches p o')
    (le : ∀ h ∈ o.references, ∀ k ∈ o'.references, p h k → q h k) : o.Matches q o' := by
  cases same with
  | string text => exact .string text
  | @function f g same =>
    refine .function ⟨?_, same.arity, same.captureCount, same.chunk.code, same.chunk.lines, ?_⟩
    · obtain ⟨name, _, _, _⟩ := f
      obtain ⟨name', _, _, _⟩ := g
      cases same.name with
      | none => exact .none
      | some paired => exact .some (le _ List.mem_cons_self _ List.mem_cons_self paired)
    · apply same.chunk.constants.imp
      intro v mem w mem' same
      apply same.imp
      intro h k eq eq'
      refine le h (List.mem_append_right _ ?_) k (List.mem_append_right _ ?_)
      · exact List.mem_filterMap.mpr ⟨v, Array.mem_toList_iff.mpr mem, eq⟩
      · exact List.mem_filterMap.mpr ⟨w, Array.mem_toList_iff.mpr mem', eq'⟩
  | closure function captured =>
    apply Object.Matches.closure (le _ List.mem_cons_self _ List.mem_cons_self function)
    exact captured.imp fun u mem w mem' => le u
      (List.mem_cons_of_mem _ (Array.mem_toList_iff.mpr mem)) w
      (List.mem_cons_of_mem _ (Array.mem_toList_iff.mpr mem'))
  | opened slot => exact .opened slot
  | closed same =>
    exact .closed (same.imp fun h k eq eq' => le h (Option.mem_toList.mpr eq) k
      (Option.mem_toList.mpr eq'))
  | cls named same =>
    exact .cls (le _ List.mem_cons_self _ List.mem_cons_self named) (same.imp fun h mem k mem' =>
      le h (List.mem_cons_of_mem _ mem) k (List.mem_cons_of_mem _ mem'))
  | inst owned same =>
    exact .inst (le _ List.mem_cons_self _ List.mem_cons_self owned) (same.imp fun h mem k mem' =>
      le h (List.mem_cons_of_mem _ mem) k (List.mem_cons_of_mem _ mem'))
  | bound receiver paired =>
    refine .bound (receiver.imp fun h k eq eq' => ?_) (le _ ?_ _ ?_ paired)
    · exact le h (List.mem_append_left _ (Option.mem_toList.mpr eq)) k
        (List.mem_append_left _ (Option.mem_toList.mpr eq'))
    · exact List.mem_append_right _ List.mem_cons_self
    · exact List.mem_append_right _ List.mem_cons_self
  | native n => exact .native n

theorem Object.Matches.kind {o o' : Object} (same : o.Matches p o') : o.kind = o'.kind := by
  cases same <;> rfl

end ScriptMachine
