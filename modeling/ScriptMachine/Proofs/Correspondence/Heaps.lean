/-
# Heaps that correspond

A pairing of two heaps pairs objects that match as long as both are live. It
may only grow: when one heap frees an object that the other one keeps, the pair
means nothing any more. So a collection in one of the heaps needs no argument
at all, and neither does an object that only one of them gets.

A string that was freed may come back under another handle. Its partner is then
paired anew, and this is no contradiction, for the old handle is never live
again. Among live handles the pairing is one to one.

## Main definitions

* `Heap.Linked` — handles that stand for each other and are both live
* `Heap.Matches` — linked handles stand for matching objects
* `Heap.Named`, `Heap.Alike` — keys and tables that stand for each other

## Main results

* `Matches.retain`, `Matches.join`, `Matches.modify` — what keeps heaps matching
* `Matches.get?` — linked handles stand for objects that refer to linked handles
* `Matches.display` — linked values have the same text
-/

import ScriptMachine.Proofs.Correspondence.Matching
import ScriptMachine.Proofs.Heap.Soundness

namespace ScriptMachine

namespace Heap

variable {p : Pairing} {heap₁ heap₂ heap after after₁ after₂ : Heap} {h₁ h₂ h : Handle}
  {o₁ o₂ object : Object} {v₁ v₂ : Value} {key₁ key₂ : Key}

/-- The handles stand for each other, and both are live. -/
structure Linked (p : Pairing) (heap₁ heap₂ : Heap) (h₁ h₂ : Handle) : Prop where
  paired : p h₁ h₂
  live₁ : heap₁.contains h₁
  live₂ : heap₂.contains h₂

/-- Both heaps are sound, and handles that stand for each other stand for matching objects, as long
as they are both live. -/
structure Matches (p : Pairing) (heap₁ heap₂ : Heap) : Prop where
  sound₁ : heap₁.Sound .live
  sound₂ : heap₂.Sound .live
  issued₁ : ∀ h₁ h₂, p h₁ h₂ → h₁.index < heap₁.cells.size
  issued₂ : ∀ h₁ h₂, p h₁ h₂ → h₂.index < heap₂.cells.size
  unique : Pairing.OneToOne (Linked p heap₁ heap₂)
  objects : ∀ h₁ h₂ o₁ o₂, p h₁ h₂ → heap₁.get? h₁ = some o₁ → heap₂.get? h₂ = some o₂ →
    o₁.Matches p o₂

/-! ## What keeps heaps matching -/

theorem retains_recharge (heap : Heap) (h : Handle) : heap.Retains (heap.recharge h) :=
  ⟨(size_cells_recharge heap h).ge, fun k _ _ found => get?_recharge heap h k ▸ found⟩

/-- Heaps may be replaced by others in which no paired handle comes back, if the objects match. -/
theorem Matches.replace (same : Matches p heap₁ heap₂) (sound₁ : after₁.Sound .live)
    (sound₂ : after₂.Sound .live) (grown₁ : heap₁.cells.size ≤ after₁.cells.size)
    (grown₂ : heap₂.cells.size ≤ after₂.cells.size)
    (live₁ : ∀ h k, p h k → after₁.contains h → heap₁.contains h)
    (live₂ : ∀ h k, p h k → after₂.contains k → heap₂.contains k)
    (objects : ∀ h k o o', p h k → Linked p heap₁ heap₂ h k → after₁.get? h = some o →
      after₂.get? k = some o' → o.Matches p o') : Matches p after₁ after₂ := by
  -- What is linked now was linked before.
  have before {h k : Handle} (linked : Linked p after₁ after₂ h k) : Linked p heap₁ heap₂ h k :=
    ⟨linked.paired, live₁ h k linked.paired linked.live₁, live₂ h k linked.paired linked.live₂⟩
  refine ⟨sound₁, sound₂, ?_, ?_, ⟨?_, ?_⟩, ?_⟩
  · intro h k paired
    exact Nat.lt_of_lt_of_le (same.issued₁ h k paired) grown₁
  · intro h k paired
    exact Nat.lt_of_lt_of_le (same.issued₂ h k paired) grown₂
  · intro h k k' linked linked'
    exact same.unique.right h k k' (before linked) (before linked')
  · intro h h' k linked linked'
    exact same.unique.left h h' k (before linked) (before linked')
  · intro h k o o' paired found found'
    have linked := before ⟨paired, contains_of_get? found, contains_of_get? found'⟩
    exact objects h k o o' paired linked found found'

/-- What either heap does to its other objects does not matter to the other heap. -/
theorem Matches.retain (same : Matches p heap₁ heap₂) (retains₁ : heap₁.Retains after₁)
    (retains₂ : heap₂.Retains after₂) (sound₁ : after₁.Sound .live) (sound₂ : after₂.Sound .live) :
    Matches p after₁ after₂ := by
  -- An issued handle that is live was live before.
  have live {heap after : Heap} {h : Handle} (retains : heap.Retains after)
      (issued : h.index < heap.cells.size) (live : after.contains h) : heap.contains h := by
    obtain ⟨object, found⟩ := contains_iff_get?.mp live
    exact contains_of_get? (retains.same h object issued found)
  refine same.replace sound₁ sound₂ retains₁.grown retains₂.grown ?_ ?_ ?_
  · exact fun h k paired => live retains₁ (same.issued₁ h k paired)
  · exact fun h k paired => live retains₂ (same.issued₂ h k paired)
  · intro h k o o' paired _ found found'
    exact same.objects h k o o' paired (retains₁.same h o (same.issued₁ h k paired) found)
      (retains₂.same k o' (same.issued₂ h k paired) found')

theorem Matches.join (same : Matches p heap₁ heap₂) (found₁ : heap₁.get? h₁ = some o₁)
    (found₂ : heap₂.get? h₂ = some o₂) (matching : o₁.Matches p o₂)
    (right : ∀ k, Linked p heap₁ heap₂ h₁ k → k = h₂)
    (left : ∀ k, Linked p heap₁ heap₂ k h₂ → k = h₁) : Matches (p.join h₁ h₂) heap₁ heap₂ := by
  have wider {o o' : Object} (matching : o.Matches p o') : o.Matches (p.join h₁ h₂) o' :=
    matching.imp fun _ _ _ _ paired => .inl paired
  -- A link is an old one, or that of the two handles.
  have before {k₁ k₂ : Handle} (linked : Linked (p.join h₁ h₂) heap₁ heap₂ k₁ k₂) :
      Linked p heap₁ heap₂ k₁ k₂ ∨ k₁ = h₁ ∧ k₂ = h₂ :=
    linked.paired.imp_left fun paired => ⟨paired, linked.live₁, linked.live₂⟩
  refine ⟨same.sound₁, same.sound₂, ?_, ?_, ⟨?_, ?_⟩, ?_⟩
  · rintro k₁ k₂ (paired | ⟨rfl, rfl⟩)
    · exact same.issued₁ k₁ k₂ paired
    · exact lt_size_of_contains (contains_of_get? found₁)
  · rintro k₁ k₂ (paired | ⟨rfl, rfl⟩)
    · exact same.issued₂ k₁ k₂ paired
    · exact lt_size_of_contains (contains_of_get? found₂)
  · intro h k k' linked linked'
    rcases before linked with old | ⟨rfl, rfl⟩
    · rcases before linked' with old' | ⟨rfl, rfl⟩
      · exact same.unique.right h k k' old old'
      · exact right k old
    · rcases before linked' with old' | ⟨-, rfl⟩
      · exact (right k' old').symm
      · rfl
  · intro h h' k linked linked'
    rcases before linked with old | ⟨rfl, rfl⟩
    · rcases before linked' with old' | ⟨rfl, rfl⟩
      · exact same.unique.left h h' k old old'
      · exact left h old
    · rcases before linked' with old' | ⟨rfl, -⟩
      · exact (left h' old').symm
      · rfl
  · rintro h k o o' (paired | ⟨rfl, rfl⟩) found found'
    · exact wider (same.objects h k o o' paired found found')
    · obtain rfl : o₁ = o := Option.some.inj (found₁.symm.trans found)
      obtain rfl : o₂ = o' := Option.some.inj (found₂.symm.trans found')
      exact wider matching

/-- Linked objects may be changed alike. -/
theorem Matches.modify {f₁ f₂ : Object → Object} (same : Matches p heap₁ heap₂)
    (linked : Linked p heap₁ heap₂ h₁ h₂)
    (alike : ∀ o₁ o₂, heap₁.get? h₁ = some o₁ → heap₂.get? h₂ = some o₂ →
      (f₁ o₁).Matches p (f₂ o₂))
    (sound₁ : (heap₁.modify h₁ f₁).Sound .live) (sound₂ : (heap₂.modify h₂ f₂).Sound .live) :
    Matches p (heap₁.modify h₁ f₁) (heap₂.modify h₂ f₂) := by
  have live {heap : Heap} {h k : Handle} {f : Object → Object}
      (changed : (heap.modify h f).contains k) : heap.contains k := by
    obtain ⟨object, found⟩ := contains_iff_get?.mp changed
    rw [get?_modify] at found
    split at found
    · obtain ⟨o, found, -⟩ := Option.map_eq_some_iff.mp found
      exact contains_of_get? found
    · exact contains_of_get? found
  apply same.replace sound₁ sound₂ (size_cells_modify ..).ge (size_cells_modify ..).ge
    (fun _ _ _ => live) (fun _ _ _ => live)
  intro k₁ k₂ o₁ o₂ paired linked' found₁ found₂
  rw [get?_modify] at found₁ found₂
  -- As links are one to one, both handles of a pair are the ones that change, or neither is.
  by_cases here : k₁ = h₁
  · obtain rfl := here
    obtain rfl := same.unique.right k₁ k₂ h₂ linked' linked
    rw [if_pos rfl] at found₁ found₂
    obtain ⟨o₁, before₁, rfl⟩ := Option.map_eq_some_iff.mp found₁
    obtain ⟨o₂, before₂, rfl⟩ := Option.map_eq_some_iff.mp found₂
    exact alike o₁ o₂ before₁ before₂
  · have there : k₂ ≠ h₂ := by
      intro eq
      rw [eq] at linked'
      exact here (same.unique.left k₁ h₁ h₂ linked' linked)
    rw [if_neg here] at found₁
    rw [if_neg there] at found₂
    exact same.objects k₁ k₂ o₁ o₂ paired found₁ found₂

theorem matches_empty (config₁ config₂ : Config) :
    Matches (fun _ _ => False) (empty config₁) (empty config₂) where
  sound₁ := sound_empty .live config₁
  sound₂ := sound_empty .live config₂
  issued₁ _ _ paired := paired.elim
  issued₂ _ _ paired := paired.elim
  unique := ⟨fun _ _ _ linked => linked.paired.elim, fun _ _ _ linked => linked.paired.elim⟩
  objects _ _ _ _ paired := paired.elim

/-! ## Linked handles -/

/-- Values that match are linked if what they stand for is live. -/
theorem linked_of_matches (same : v₁.Matches p v₂)
    (held₁ : v₁.Held .live heap₁) (held₂ : v₂.Held .live heap₂) :
    v₁.Matches (Linked p heap₁ heap₂) v₂ :=
  same.imp fun h k eq eq' paired => ⟨paired, held₁ h eq, held₂ k eq'⟩

theorem matches_of_linked (same : v₁.Matches (Linked p heap₁ heap₂) v₂) :
    v₁.Matches p v₂ := same.imp fun _ _ _ _ linked => linked.paired

theorem held_of_linked (same : v₁.Matches (Linked p heap₁ heap₂) v₂) :
    v₁.Held .live heap₁ ∧ v₂.Held .live heap₂ := by
  cases same with
  | nil | bool | number => exact ⟨nofun, nofun⟩
  | object linked => exact ⟨Value.held_object linked.live₁, Value.held_object linked.live₂⟩

/-- Linked handles stand for objects that refer to linked handles in the same places. -/
theorem Matches.get? (same : Matches p heap₁ heap₂) (linked : Linked p heap₁ heap₂ h₁ h₂) :
    ∃ o₁ o₂, heap₁.get? h₁ = some o₁ ∧ heap₂.get? h₂ = some o₂ ∧
      o₁.Matches (Linked p heap₁ heap₂) o₂ := by
  obtain ⟨o₁, found₁⟩ := contains_iff_get?.mp linked.live₁
  obtain ⟨o₂, found₂⟩ := contains_iff_get?.mp linked.live₂
  refine ⟨o₁, o₂, found₁, found₂, ?_⟩
  apply (same.objects h₁ h₂ o₁ o₂ linked.paired found₁ found₂).imp
  intro k₁ mem₁ k₂ mem₂ paired
  exact ⟨paired, (same.sound₁.object h₁ o₁ found₁).contains mem₁,
    (same.sound₂.object h₂ o₂ found₂).contains mem₂⟩

theorem Matches.text? (same : Matches p heap₁ heap₂) (linked : Linked p heap₁ heap₂ h₁ h₂) :
    heap₁.text? h₁ = heap₂.text? h₂ := by
  obtain ⟨o₁, o₂, found₁, found₂, matching⟩ := same.get? linked
  rw [Heap.text?, Heap.text?, found₁, found₂]
  cases matching with
  | string text => exact congrArg some text
  | _ => rfl

theorem Matches.kind? (same : Matches p heap₁ heap₂) (linked : Linked p heap₁ heap₂ h₁ h₂) :
    heap₁.kind? h₁ = heap₂.kind? h₂ := by
  obtain ⟨o₁, o₂, found₁, found₂, matching⟩ := same.get? linked
  rw [kind?_of_get? found₁, kind?_of_get? found₂, matching.kind]

theorem Matches.function? (same : Matches p heap₁ heap₂) (linked : Linked p heap₁ heap₂ h₁ h₂) :
    Option.Rel (Function.Matches (Linked p heap₁ heap₂)) (heap₁.function? h₁)
      (heap₂.function? h₂) := by
  obtain ⟨o₁, o₂, found₁, found₂, matching⟩ := same.get? linked
  rw [Heap.function?, Heap.function?, found₁, found₂]
  cases matching with
  | function same => exact .some same
  | _ => exact .none

theorem Matches.closureFunction? (same : Matches p heap₁ heap₂)
    (linked : Linked p heap₁ heap₂ h₁ h₂) :
    Option.Rel (Linked p heap₁ heap₂) (heap₁.closureFunction? h₁) (heap₂.closureFunction? h₂) := by
  obtain ⟨o₁, o₂, found₁, found₂, matching⟩ := same.get? linked
  rw [Heap.closureFunction?, Heap.closureFunction?, found₁, found₂]
  cases matching with
  | closure function captured => exact .some function
  | _ => exact .none

theorem Matches.captured? (same : Matches p heap₁ heap₂) (linked : Linked p heap₁ heap₂ h₁ h₂) :
    Option.Rel (Pointwise (Linked p heap₁ heap₂)) (heap₁.captured? h₁) (heap₂.captured? h₂) := by
  obtain ⟨o₁, o₂, found₁, found₂, matching⟩ := same.get? linked
  rw [Heap.captured?, Heap.captured?, found₁, found₂]
  cases matching with
  | closure function captured => exact .some captured
  | _ => exact .none

/-! ## New objects -/

/-- Objects that match may be put into the heaps, and are paired from then on. -/
theorem Matches.allocated {roots₁ roots₂ : List Handle} (same : Matches p heap₁ heap₂)
    (allocated₁ : heap₁.Allocated o₁ roots₁ h₁ after₁)
    (allocated₂ : heap₂.Allocated o₂ roots₂ h₂ after₂) (matching : o₁.Matches p o₂)
    (sound₁ : after₁.Sound .live) (sound₂ : after₂.Sound .live) :
    Matches (p.join h₁ h₂) after₁ after₂ := by
  -- The handles are new, so that nothing was paired with them.
  refine (same.retain allocated₁.retains allocated₂.retains sound₁ sound₂).join allocated₁.get?
    allocated₂.get? matching (fun k linked => ?_) fun k linked => ?_
  · exact absurd rfl (allocated₁.ne_of_lt (same.issued₁ h₁ k linked.paired))
  · exact absurd rfl (allocated₂.ne_of_lt (same.issued₂ k h₂ linked.paired))

/-- The strings with a text are paired, whether the heaps had them before or not. -/
theorem Matches.intern (same : Matches p heap₁ heap₂) (text : String)
    (roots₁ roots₂ : List Handle) :
    Matches (p.join (heap₁.intern text roots₁).1 (heap₂.intern text roots₂).1)
      (heap₁.intern text roots₁).2 (heap₂.intern text roots₂).2 := by
  have sound₁ := same.sound₁.intern text roots₁
  have sound₂ := same.sound₂.intern text roots₂
  have text₁ := text?_intern same.sound₁.canonical same.sound₁.clean text roots₁
  have text₂ := text?_intern same.sound₂.canonical same.sound₂.clean text roots₂
  have retained := same.retain
    (retains_intern same.sound₁.canonical same.sound₁.clean text roots₁)
    (retains_intern same.sound₂.canonical same.sound₂.clean text roots₂) sound₁ sound₂
  obtain ⟨s₁, found₁, eq₁⟩ := text?_eq_some_iff.mp text₁
  obtain ⟨s₂, found₂, eq₂⟩ := text?_eq_some_iff.mp text₂
  refine retained.join found₁ found₂ (.string (eq₁.trans eq₂.symm)) ?_ ?_
  -- Whatever was paired with one of the strings has the same text, and so is the other one.
  · intro k linked
    have texts := retained.text? linked
    rw [text₁] at texts
    exact sound₂.canonical.distinct k _ text texts.symm text₂
  · intro k linked
    have texts := retained.text? linked
    rw [text₂] at texts
    exact sound₁.canonical.distinct k _ text texts text₁

/-! ## Keys -/

/-- The keys are those of linked strings. -/
structure Named (p : Pairing) (heap₁ heap₂ : Heap) (key₁ key₂ : Key) : Prop where
  linked : Linked p heap₁ heap₂ key₁.handle key₂.handle
  found₁ : heap₁.key? key₁.handle = some key₁
  found₂ : heap₂.key? key₂.handle = some key₂

theorem Matches.key? (same : Matches p heap₁ heap₂) (linked : Linked p heap₁ heap₂ h₁ h₂) :
    Option.Rel (Named p heap₁ heap₂) (heap₁.key? h₁) (heap₂.key? h₂) := by
  have texts := same.text? linked
  cases text : heap₁.text? h₁ with
  | none =>
    rw [key?_eq, key?_eq, ← texts, text]
    exact .none
  | some s =>
    have found₁ : heap₁.key? h₁ = some ⟨h₁, Hash.ofText s⟩ := by
      rw [key?_eq, text, Option.map_some]
    have found₂ : heap₂.key? h₂ = some ⟨h₂, Hash.ofText s⟩ := by
      rw [key?_eq, ← texts, text, Option.map_some]
    rw [found₁, found₂]
    exact .some ⟨linked, found₁, found₂⟩

theorem Matches.isString (same : Matches p heap₁ heap₂)
    (matching : v₁.Matches (Linked p heap₁ heap₂) v₂) : heap₁.isString v₁ = heap₂.isString v₂ := by
  cases matching with
  | nil | bool | number => rfl
  | @object h₁ h₂ linked =>
    have keys := same.key? linked
    change (heap₁.key? h₁).isSome = (heap₂.key? h₂).isSome
    generalize heap₁.key? h₁ = key₁ at keys
    generalize heap₂.key? h₂ = key₂ at keys
    cases keys <;> rfl

/-- Linked keys have the same hash. -/
theorem Named.matches (named : Named p heap₁ heap₂ key₁ key₂) (same : Matches p heap₁ heap₂) :
    key₁.Matches (Linked p heap₁ heap₂) key₂ := by
  refine ⟨named.linked, ?_⟩
  obtain ⟨-, text₁, found₁, hash₁⟩ := key?_eq_some_iff.mp named.found₁
  obtain ⟨-, text₂, found₂, hash₂⟩ := key?_eq_some_iff.mp named.found₂
  rw [same.text? named.linked, found₂] at found₁
  rw [hash₁, hash₂, Option.some.inj found₁]

/-! ## Tables -/

/-- The tables belong to the heaps, and their bindings are equal up to the links. -/
structure Alike (p : Pairing) (heap₁ heap₂ : Heap) (t₁ t₂ : Table) : Prop where
  matches_ : t₁.Matches (Linked p heap₁ heap₂) t₂
  sound₁ : t₁.Sound .live heap₁
  sound₂ : t₂.Sound .live heap₂

section

variable {t₁ t₂ source₁ source₂ : Table}

theorem Alike.twins (alike : Alike p heap₁ heap₂ t₁ t₂) (same : Matches p heap₁ heap₂) :
    Table.Twins (Linked p heap₁ heap₂) t₁ t₂ where
  toMatches := alike.matches_
  unique := same.unique
  lawful := alike.sound₁.lawful
  lawful' := alike.sound₂.lawful

theorem Alike.keys (alike : Alike p heap₁ heap₂ t₁ t₂) (same : Matches p heap₁ heap₂)
    (named : Named p heap₁ heap₂ key₁ key₂) :
    Key.Twins (Linked p heap₁ heap₂) t₁ t₂ key₁ key₂ where
  toMatches := named.matches same
  agrees := alike.sound₁.agrees named.found₁
  agrees' := alike.sound₂.agrees named.found₂

theorem Alike.get? (alike : Alike p heap₁ heap₂ t₁ t₂) (same : Matches p heap₁ heap₂)
    (named : Named p heap₁ heap₂ key₁ key₂) :
    Option.Rel (Value.Matches (Linked p heap₁ heap₂)) (t₁.get? key₁) (t₂.get? key₂) :=
  (alike.twins same).get? (alike.keys same named)

theorem Alike.insert (alike : Alike p heap₁ heap₂ t₁ t₂) (same : Matches p heap₁ heap₂)
    (named : Named p heap₁ heap₂ key₁ key₂) (values : v₁.Matches (Linked p heap₁ heap₂) v₂) :
    Alike p heap₁ heap₂ (t₁.insert key₁ v₁).2 (t₂.insert key₂ v₂).2 where
  matches_ := (alike.twins same).insert (alike.keys same named) values
  sound₁ := alike.sound₁.insert named.found₁ (held_of_linked values).1
  sound₂ := alike.sound₂.insert named.found₂ (held_of_linked values).2

theorem Alike.insert_fst (alike : Alike p heap₁ heap₂ t₁ t₂) (same : Matches p heap₁ heap₂)
    (named : Named p heap₁ heap₂ key₁ key₂) (v₁ v₂ : Value) :
    (t₁.insert key₁ v₁).1 = (t₂.insert key₂ v₂).1 :=
  (alike.twins same).insert_fst (alike.keys same named) v₁ v₂

theorem Alike.erase (alike : Alike p heap₁ heap₂ t₁ t₂) (same : Matches p heap₁ heap₂)
    (named : Named p heap₁ heap₂ key₁ key₂) :
    Alike p heap₁ heap₂ (t₁.erase key₁).2 (t₂.erase key₂).2 where
  matches_ := (alike.twins same).erase (alike.keys same named)
  sound₁ := alike.sound₁.erase named.found₁
  sound₂ := alike.sound₂.erase named.found₂

theorem Alike.addAll (alike : Alike p heap₁ heap₂ t₁ t₂)
    (inherited : Alike p heap₁ heap₂ source₁ source₂) (same : Matches p heap₁ heap₂) :
    Alike p heap₁ heap₂ (t₁.addAll source₁) (t₂.addAll source₂) where
  matches_ := (alike.twins same).addAll (inherited.twins same)
    (fun e mem => alike.sound₁.agrees (inherited.sound₁.keys e.1 e.2 mem))
    fun e mem => alike.sound₂.agrees (inherited.sound₂.keys e.1 e.2 mem)
  sound₁ := alike.sound₁.addAll inherited.sound₁
  sound₂ := alike.sound₂.addAll inherited.sound₂

end

end Heap

end ScriptMachine
