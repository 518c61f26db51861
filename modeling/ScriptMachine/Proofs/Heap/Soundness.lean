/-
# Sound heaps

An object of a sound heap refers to what it needs: the function of a closure is
a function, its captured variables are captured variables, the class of an
instance is a class, and the keys of a table are live strings with the hashes
of their texts. Such objects are live, whatever comes into the heap from
outside.

Other handles come from outside, as constants of functions or as results of
host functions, and are passed on as values. What is known about them depends
on what the outside promises. A promise that they are live is kept by the heap:
a collection frees nothing that a live object refers to.

## Main definitions

* `Custody` — what is promised about the handles that come from outside
* `Object.Sound`, `Heap.Sound` — objects refer to what they need
* `Heap.Keeps` — a handle still stands for an object of the same kind and text
* `Heap.Retains` — what is live under an old handle was there before

## Main results

* `Heap.Sound.collect`, `Heap.Sound.allocate`, `Heap.Sound.intern`, `Heap.Sound.modify` — what
  keeps a heap sound
-/

import ScriptMachine.Proofs.Heap.Interning

namespace ScriptMachine

/-- What is promised about the handles that come from outside. -/
inductive Custody
  /-- They may be anything. -/
  | any
  /-- The heap has handed them out, and they may have been freed since. -/
  | issued
  | live
  deriving DecidableEq, Repr

namespace Heap

/-- The promise holds of a handle. -/
def Holds (heap : Heap) : Custody → Handle → Prop
  | .any, _ => True
  | .issued, h => h.index < heap.cells.size
  | .live, h => heap.contains h

def kind? (heap : Heap) (h : Handle) : Option Kind := (heap.get? h).map (·.kind)

/-- The handle stands for an object of the same kind and with the same text in the other heap. -/
structure Keeps (heap other : Heap) (h : Handle) : Prop where
  kind : other.kind? h = heap.kind? h
  text : other.text? h = heap.text? h

end Heap

/-- The promise holds of the handle of a value, if it has one. -/
def Value.Held (c : Custody) (heap : Heap) (v : Value) : Prop :=
  ∀ h, v.handle? = some h → heap.Holds c h

/-- The keys of the table are live strings with the hashes of their texts. -/
structure Table.Sound (c : Custody) (heap : Heap) (t : Table) : Prop where
  lawful : t.Lawful
  keys : ∀ key v, (key, v) ∈ t.entries → heap.key? key.handle = some key
  values : ∀ key v, (key, v) ∈ t.entries → v.Held c heap

/-- An object under this handle refers to what it needs. The method of a bound method is older than
the bound method, unless its handle may be anything. -/
def Object.Sound (c : Custody) (heap : Heap) (h : Handle) : Object → Prop
  | string _ | native _ | upvalue (.opened _) => True
  | function f => (∀ name ∈ f.name, heap.Holds c name) ∧ ∀ v ∈ f.chunk.constants, v.Held c heap
  | closure f upvalues _ =>
    heap.kind? f = some .function ∧ ∀ u ∈ upvalues, heap.kind? u = some .upvalue
  | upvalue (.closed v) => v.Held c heap
  | cls name methods => heap.kind? name = some .string ∧ methods.Sound c heap
  | inst owner fields => heap.kind? owner = some .cls ∧ fields.Sound c heap
  | bound receiver method =>
    receiver.Held c heap ∧ heap.Holds c method ∧ (c ≠ .any → method.index < h.index)

/-- No collection is going on, strings are interned, and all objects are sound. -/
structure Heap.Sound (c : Custody) (heap : Heap) : Prop where
  clean : heap.Clean
  canonical : heap.Canonical
  object : ∀ h o, heap.get? h = some o → o.Sound c heap h

namespace Heap

variable {c : Custody} {heap other after : Heap} {roots : List Handle} {h k : Handle} {v : Value}
  {key : Key} {object : Object}

/-! ## Kinds -/

theorem kind?_of_get? (found : heap.get? h = some object) : heap.kind? h = some object.kind := by
  rw [kind?, found, Option.map_some]

theorem contains_of_kind? {kind : Kind} (found : heap.kind? h = some kind) : heap.contains h := by
  obtain ⟨object, found, -⟩ := Option.map_eq_some_iff.mp found
  exact contains_of_get? found

theorem kind?_of_contains (live : heap.contains h) : ∃ kind, heap.kind? h = some kind := by
  obtain ⟨object, found⟩ := contains_iff_get?.mp live
  exact ⟨_, kind?_of_get? found⟩

theorem kind?_of_key? (found : heap.key? h = some key) : heap.kind? h = some .string := by
  obtain ⟨-, text, found, -⟩ := key?_eq_some_iff.mp found
  obtain ⟨s, found, -⟩ := text?_eq_some_iff.mp found
  exact kind?_of_get? found

theorem kind?_eq_some_iff {kind : Kind} :
    heap.kind? h = some kind ↔ ∃ object, heap.get? h = some object ∧ object.kind = kind :=
  Option.map_eq_some_iff

theorem function?_of_kind? (found : heap.kind? h = some .function) :
    ∃ f, heap.function? h = some f ∧ heap.get? h = some (.function f) := by
  obtain ⟨object, found, kind⟩ := kind?_eq_some_iff.mp found
  cases object <;> cases kind
  exact ⟨_, by rw [function?, found], found⟩

theorem upvalue?_of_kind? (found : heap.kind? h = some .upvalue) :
    ∃ u, heap.upvalue? h = some u ∧ heap.get? h = some (.upvalue u) := by
  obtain ⟨object, found, kind⟩ := kind?_eq_some_iff.mp found
  cases object <;> cases kind
  exact ⟨_, by rw [upvalue?, found], found⟩

/-! ## Handles that are kept -/

theorem Keeps.refl (heap : Heap) (h : Handle) : heap.Keeps heap h := ⟨rfl, rfl⟩

theorem Keeps.trans (keeps : heap.Keeps other h) (keeps' : other.Keeps after h) :
    heap.Keeps after h :=
  ⟨keeps'.kind.trans keeps.kind, keeps'.text.trans keeps.text⟩

theorem Keeps.of_get? (same : other.get? h = heap.get? h) : heap.Keeps other h :=
  ⟨by rw [kind?, kind?, same], by rw [text?, text?, same]⟩

theorem Keeps.of_cell? (same : other.cell? h = heap.cell? h) : heap.Keeps other h :=
  .of_get? (by rw [get?, get?, same])

theorem Keeps.key? (keeps : heap.Keeps other h) : other.key? h = heap.key? h := by
  rw [key?_eq, key?_eq, keeps.text]

theorem Keeps.contains (keeps : heap.Keeps other h) (live : heap.contains h) :
    other.contains h := by
  obtain ⟨kind, found⟩ := kind?_of_contains live
  exact contains_of_kind? (keeps.kind.trans found)

/-- A promise about a live handle is promised too little by the other promises. -/
theorem Holds.of_contains (live : heap.contains h) : heap.Holds c h := by
  cases c with
  | any => trivial
  | issued => exact lt_size_of_contains live
  | live => exact live

theorem Holds.lt_size (holds : heap.Holds c h) (known : c ≠ .any) : h.index < heap.cells.size := by
  cases c with
  | any => exact absurd rfl known
  | issued => exact holds
  | live => exact lt_size_of_contains holds

/-- A promise goes on to hold where handles are handed out and live objects are kept. -/
theorem Holds.transfer (holds : heap.Holds c h) (grown : heap.cells.size ≤ other.cells.size)
    (keeps : heap.contains h → heap.Keeps other h) : other.Holds c h := by
  cases c with
  | any => trivial
  | issued => exact Nat.lt_of_lt_of_le holds grown
  | live => exact (keeps holds).contains holds

end Heap

open Heap

variable {c : Custody} {heap other after : Heap} {roots : List Handle} {h k : Handle} {v : Value}
  {key : Key} {object : Object} {t : Table}

theorem Value.Held.transfer (held : v.Held c heap) (grown : heap.cells.size ≤ other.cells.size)
    (keeps : ∀ h, v.handle? = some h → heap.contains h → heap.Keeps other h) :
    v.Held c other :=
  fun h eq => (held h eq).transfer grown (keeps h eq)

theorem Value.held_object (live : heap.contains h) : (Value.object h).Held c heap := by
  rintro _ ⟨⟩
  exact .of_contains live

theorem Value.held_of_handle?_eq_none (none : v.handle? = none) : v.Held c heap := by
  intro h eq
  rw [none] at eq
  cases eq

theorem Object.mem_tableReferences_iff :
    h ∈ tableReferences t ↔
      ∃ key v, (key, v) ∈ t.entries ∧ (h = key.handle ∨ v.handle? = some h) := by
  simp [tableReferences, Option.mem_toList]

theorem Table.Sound.empty (c : Custody) (heap : Heap) : Table.empty.Sound c heap :=
  ⟨lawful_empty, fun _ _ mem => by simp at mem, fun _ _ mem => by simp at mem⟩

theorem Table.Sound.transfer (sound : t.Sound c heap) (grown : heap.cells.size ≤ other.cells.size)
    (keeps : ∀ h ∈ Object.tableReferences t, heap.contains h → heap.Keeps other h) :
    t.Sound c other := by
  refine ⟨sound.lawful, fun key v mem => ?_, fun key v mem => ?_⟩
  · have found := sound.keys key v mem
    have live := contains_of_kind? (kind?_of_key? found)
    rw [(keeps _ (Object.mem_tableReferences_iff.mpr ⟨key, v, mem, .inl rfl⟩) live).key?, found]
  · exact (sound.values key v mem).transfer grown fun h eq =>
      keeps h (Object.mem_tableReferences_iff.mpr ⟨key, v, mem, .inr eq⟩)

/-- An object stays sound where what it refers to is kept. -/
theorem Object.Sound.transfer (sound : object.Sound c heap h)
    (grown : heap.cells.size ≤ other.cells.size)
    (keeps : ∀ k ∈ object.references, heap.contains k → heap.Keeps other k) :
    object.Sound c other h := by
  -- What an object needs by its kind is live, so that it is kept with its kind.
  have same {k : Handle} {kind : Kind} (mem : k ∈ object.references)
      (found : heap.kind? k = some kind) : other.kind? k = some kind :=
    (keeps k mem (contains_of_kind? found)).kind.trans found
  cases object with
  | string | native => trivial
  -- Names and constants are promised by the host, so they may be dead; then they stay issued.
  | function f =>
    refine ⟨fun name eq => (sound.1 name eq).transfer grown (keeps name ?_),
      fun v mem => (sound.2 v mem).transfer grown fun k eq => keeps k ?_⟩
    · exact List.mem_append_left _ (Option.mem_toList.mpr eq)
    · exact List.mem_append_right _ (List.mem_filterMap.mpr ⟨v, Array.mem_toList_iff.mpr mem, eq⟩)
  | closure f upvalues reserved =>
    exact ⟨same List.mem_cons_self sound.1, fun u mem =>
      same (List.mem_cons_of_mem _ (Array.mem_toList_iff.mpr mem)) (sound.2 u mem)⟩
  | upvalue u =>
    cases u with
    | opened => trivial
    | closed v =>
      apply Value.Held.transfer sound grown
      intro k eq
      apply keeps k
      exact Option.mem_toList.mpr eq
  -- The name and the keys are live strings; the methods may be what the table promises.
  | cls name methods =>
    exact ⟨same List.mem_cons_self sound.1,
      sound.2.transfer grown fun k mem => keeps k (List.mem_cons_of_mem _ mem)⟩
  | inst owner fields =>
    exact ⟨same List.mem_cons_self sound.1,
      sound.2.transfer grown fun k mem => keeps k (List.mem_cons_of_mem _ mem)⟩
  | bound receiver method =>
    refine ⟨sound.1.transfer grown fun k eq => keeps k ?_,
      sound.2.1.transfer grown (keeps method ?_), sound.2.2⟩
    · exact List.mem_append_left _ (Option.mem_toList.mpr eq)
    · exact List.mem_append_right _ List.mem_cons_self

/-- If the outside promises live handles, a sound table refers to live objects only. -/
theorem Table.Sound.contains (sound : t.Sound .live heap) (mem : h ∈ Object.tableReferences t) :
    heap.contains h := by
  obtain ⟨key, v, entry, rfl | eq⟩ := Object.mem_tableReferences_iff.mp mem
  · exact contains_of_kind? (kind?_of_key? (sound.keys key v entry))
  · exact sound.values key v entry h eq

/-- If the outside promises live handles, a sound object refers to live objects only. -/
theorem Object.Sound.contains (sound : object.Sound .live heap h) (mem : k ∈ object.references) :
    heap.contains k := by
  cases object with
  | string | native => cases mem
  | function f =>
    rcases List.mem_append.mp mem with mem | mem
    · exact sound.1 k (Option.mem_toList.mp mem)
    · obtain ⟨v, mem, eq⟩ := List.mem_filterMap.mp mem
      exact sound.2 v (Array.mem_toList_iff.mp mem) k eq
  | closure f upvalues reserved =>
    rcases List.mem_cons.mp mem with rfl | mem
    · exact contains_of_kind? sound.1
    · exact contains_of_kind? (sound.2 k (Array.mem_toList_iff.mp mem))
  | upvalue u =>
    cases u with
    | opened => cases mem
    | closed v => exact sound k (Option.mem_toList.mp mem)
  | cls name methods =>
    rcases List.mem_cons.mp mem with rfl | mem
    · exact contains_of_kind? sound.1
    · exact sound.2.contains mem
  | inst owner fields =>
    rcases List.mem_cons.mp mem with rfl | mem
    · exact contains_of_kind? sound.1
    · exact sound.2.contains mem
  | bound receiver method =>
    rcases List.mem_append.mp mem with mem | mem
    · exact sound.1 k (Option.mem_toList.mp mem)
    · obtain rfl := List.mem_singleton.mp mem
      exact sound.2.1

/-- A sound table that refers to live objects only is sound under the promise of live handles. -/
theorem Table.Sound.live (sound : t.Sound c heap)
    (live : ∀ h ∈ Object.tableReferences t, heap.contains h) : t.Sound .live heap :=
  ⟨sound.lawful, sound.keys, fun key v mem h eq =>
    live h (Object.mem_tableReferences_iff.mpr ⟨key, v, mem, .inr eq⟩)⟩

/-- A sound object that refers to live objects only is sound under the promise of live handles. -/
theorem Object.Sound.live (sound : object.Sound .issued heap h)
    (live : ∀ k ∈ object.references, heap.contains k) : object.Sound .live heap h := by
  cases object with
  | string | native => trivial
  | function f =>
    refine ⟨fun name eq => live name ?_, fun v mem k eq => live k ?_⟩
    · exact List.mem_append_left _ (Option.mem_toList.mpr eq)
    · exact List.mem_append_right _ (List.mem_filterMap.mpr ⟨v, Array.mem_toList_iff.mpr mem, eq⟩)
  | closure f upvalues reserved => exact sound
  | upvalue u =>
    cases u with
    | opened => trivial
    | closed v => exact fun k eq => live k (Option.mem_toList.mpr eq)
  | cls name methods =>
    exact ⟨sound.1, sound.2.live fun k mem => live k (List.mem_cons_of_mem _ mem)⟩
  | inst owner fields =>
    exact ⟨sound.1, sound.2.live fun k mem => live k (List.mem_cons_of_mem _ mem)⟩
  | bound receiver method =>
    refine ⟨fun k eq => live k ?_, live method ?_, fun _ => sound.2.2 nofun⟩
    · exact List.mem_append_left _ (Option.mem_toList.mpr eq)
    · exact List.mem_append_right _ List.mem_cons_self

/-! ## What keeps a heap sound -/

namespace Heap

theorem sound_empty (c : Custody) (config : Config) : (empty config).Sound c where
  clean := clean_empty config
  canonical := canonical_empty config
  object h o found := by simp [get?] at found

theorem Sound.collect (sound : heap.Sound c) (roots : List Handle) :
    (heap.collect roots).Sound c := by
  have clean := sound.clean
  refine ⟨clean.collect roots, sound.canonical.collect clean roots, fun h o found => ?_⟩
  obtain ⟨found, reach⟩ := (get?_collect_iff clean).mp found
  apply (sound.object h o found).transfer (size_cells_collect clean roots).ge
  intro k mem live
  exact .of_cell? (cell?_collect_of_reach clean (.reference reach found mem live))

theorem Allocated.keeps (allocated : heap.Allocated object roots h after)
    (reach : heap.Reach (roots ++ object.references) k) : heap.Keeps after k :=
  .of_cell? (allocated.kept k reach)

theorem Allocated.get? (allocated : heap.Allocated object roots h after) :
    after.get? h = some object := by
  rw [Heap.get?, allocated.new, Option.map_some]

theorem Allocated.grown (allocated : heap.Allocated object roots h after) :
    heap.cells.size ≤ after.cells.size := by
  rw [allocated.size]
  exact Nat.le_succ _

/-- The handle of a new object was not issued before. -/
theorem Allocated.ne_of_lt (allocated : heap.Allocated object roots h after)
    (issued : k.index < heap.cells.size) : k ≠ h := by
  rintro rfl
  rw [allocated.fresh] at issued
  exact Nat.lt_irrefl _ issued

/-- What the roots keep is still there. -/
theorem Allocated.get?_kept (allocated : heap.Allocated object roots h after)
    (reach : heap.Reach (roots ++ object.references) k) : after.get? k = heap.get? k := by
  rw [Heap.get?, Heap.get?, allocated.kept k reach]

/-- Any other object was there before. -/
theorem Allocated.get?_old {o : Object} (allocated : heap.Allocated object roots h after)
    (ne : k ≠ h) (found : after.get? k = some o) : heap.get? k = some o := by
  rwa [Heap.get?, allocated.old k ne (contains_of_get? found), ← Heap.get?] at found

/-- A sound object may be put into a sound heap. -/
theorem Sound.allocated (sound : heap.Sound c) (allocated : heap.Allocated object roots h after)
    (canonical : after.Canonical) (fits : object.Sound c heap h) : after.Sound c := by
  refine ⟨allocated.clean, canonical, fun k o found => ?_⟩
  by_cases eq : k = h
  · subst eq
    obtain rfl : object = o := by simpa [allocated.get?] using found
    apply fits.transfer allocated.grown
    intro r mem live
    apply allocated.keeps
    exact .root (List.mem_append_right _ mem) live
  · apply (sound.object k o (allocated.get?_old eq found)).transfer allocated.grown
    intro r mem live
    apply Keeps.of_cell?
    -- The new object has no part in this: its handle is that of no object before.
    have other : r ≠ h := by
      rw [allocated.fresh]
      exact fun eq => not_contains_next heap (eq ▸ live)
    exact allocated.old r other (allocated.closed k o r eq found mem live)

theorem Sound.allocate (sound : heap.Sound c) (roots : List Handle)
    (other : object.kind ≠ .string) (fits : object.Sound c heap ⟨heap.cells.size⟩) :
    (heap.allocate object roots).2.Sound c := by
  have allocated := allocated_allocate sound.clean object roots
  apply sound.allocated allocated (sound.canonical.allocate sound.clean other roots)
  rw [allocated.fresh]
  exact fits

theorem Sound.intern (sound : heap.Sound c) (text : String) (roots : List Handle) :
    (heap.intern text roots).2.Sound c := by
  -- The string is there, or it takes its place like any other object.
  rcases interned_intern sound.canonical sound.clean text roots with ⟨-, same⟩ | ⟨-, allocated⟩
  · rw [same]
    exact sound
  · exact sound.allocated allocated (sound.canonical.intern sound.clean text roots) trivial

/-- The heap may have handed out more handles, but those from before stand for the same objects or
for none. -/
structure Retains (heap after : Heap) : Prop where
  grown : heap.cells.size ≤ after.cells.size
  same : ∀ h object, h.index < heap.cells.size → after.get? h = some object →
    heap.get? h = some object

theorem Retains.refl (heap : Heap) : heap.Retains heap := ⟨Nat.le_refl _, fun _ _ _ found => found⟩

theorem retains_collect (clean : heap.Clean) (roots : List Handle) :
    heap.Retains (heap.collect roots) :=
  ⟨(size_cells_collect clean roots).ge, fun _ _ _ found => ((get?_collect_iff clean).mp found).1⟩

theorem Allocated.retains (allocated : heap.Allocated object roots h after) : heap.Retains after :=
  ⟨allocated.grown, fun _ _ issued => allocated.get?_old (allocated.ne_of_lt issued)⟩

theorem retains_intern (canonical : heap.Canonical) (clean : heap.Clean) (text : String)
    (roots : List Handle) : heap.Retains (heap.intern text roots).2 := by
  rcases interned_intern canonical clean text roots with ⟨-, same⟩ | ⟨-, allocated⟩
  · rw [same]
    exact .refl heap
  · exact allocated.retains

/-- An object may be changed into a sound one of the same kind, unless it is a string. -/
theorem keeps_modify {f : Object → Object} (found : heap.get? h = some object)
    (other : object.kind ≠ .string) (kind : (f object).kind = object.kind) (k : Handle) :
    heap.Keeps (heap.modify h f) k := by
  by_cases eq : k = h
  · subst eq
    have changed : (heap.modify k f).get? k = some (f object) := by
      rw [get?_modify, if_pos rfl, found, Option.map_some]
    refine ⟨by rw [kind?_of_get? changed, kind?_of_get? found, kind], ?_⟩
    -- It is no string before or after.
    have noText {heap : Heap} {o : Object} (found : heap.get? k = some o)
        (other : o.kind ≠ .string) : heap.text? k = none := by
      rw [text?, found]
      cases o <;> first | rfl | exact absurd rfl other
    rw [noText changed (kind ▸ other), noText found other]
  · exact .of_get? (by rw [get?_modify, if_neg eq])

@[simp] theorem size_cells_modify (heap : Heap) (h : Handle) (f : Object → Object) :
    (heap.modify h f).cells.size = heap.cells.size := by simp [modify, modifyCell]

theorem Sound.modify {f : Object → Object} (sound : heap.Sound c)
    (found : heap.get? h = some object) (other : object.kind ≠ .string)
    (kind : (f object).kind = object.kind) (fits : (f object).Sound c heap h) :
    (heap.modify h f).Sound c := by
  refine ⟨sound.clean.modify h f, sound.canonical.modify found other (kind ▸ other),
    fun k o changed => ?_⟩
  rw [get?_modify] at changed
  have before : o.Sound c heap k := by
    split at changed
    next eq =>
      subst eq
      obtain rfl : f object = o := by simpa [found] using changed
      exact fits
    next => exact sound.object k o changed
  exact before.transfer (size_cells_modify heap h f).ge fun r _ _ => keeps_modify found other kind r

theorem size_cells_recharge (heap : Heap) (h : Handle) :
    (heap.recharge h).cells.size = heap.cells.size := by
  unfold recharge
  split
  · rfl
  · simp [modifyCell]

theorem keeps_recharge (heap : Heap) (h k : Handle) : heap.Keeps (heap.recharge h) k :=
  .of_get? (get?_recharge heap h k)

theorem Sound.recharge (sound : heap.Sound c) (h : Handle) : (heap.recharge h).Sound c := by
  refine ⟨sound.clean.recharge h, sound.canonical.recharge h, fun k o found => ?_⟩
  rw [get?_recharge] at found
  exact (sound.object k o found).transfer (size_cells_recharge heap h).ge
    fun r _ _ => keeps_recharge heap h r

/-! ## Changing objects in place -/

theorem get?_of_upvalue? {u : Upvalue} (found : heap.upvalue? h = some u) :
    heap.get? h = some (.upvalue u) := by
  unfold upvalue? at found
  split at found <;> simp_all

theorem upvalue?_eq_some_iff {u : Upvalue} :
    heap.upvalue? h = some u ↔ heap.get? h = some (.upvalue u) :=
  ⟨get?_of_upvalue?, fun found => by rw [upvalue?, found]⟩

theorem get?_of_methods? (found : heap.methods? h = some t) :
    ∃ name, heap.get? h = some (.cls name t) := by
  unfold methods? at found
  split at found <;> simp_all

theorem get?_of_instance? {owner : Handle} (found : heap.instance? h = some (owner, t)) :
    heap.get? h = some (.inst owner t) := by
  unfold instance? at found
  split at found <;> simp_all

theorem get?_of_function? {f : Function} (found : heap.function? h = some f) :
    heap.get? h = some (.function f) := by
  unfold function? at found
  split at found <;> simp_all

theorem get?_of_closureFunction? {f : Handle} (found : heap.closureFunction? h = some f) :
    ∃ upvalues reserved, heap.get? h = some (.closure f upvalues reserved) := by
  unfold closureFunction? at found
  split at found <;> simp_all

theorem get?_of_captured? {upvalues : Array Handle} (found : heap.captured? h = some upvalues) :
    ∃ f reserved, heap.get? h = some (.closure f upvalues reserved) := by
  unfold captured? at found
  split at found <;> simp_all

theorem Sound.setUpvalue {u u' : Upvalue} (sound : heap.Sound c)
    (found : heap.get? h = some (.upvalue u)) (fits : (Object.upvalue u').Sound c heap h) :
    (heap.setUpvalue h u').Sound c :=
  sound.modify found nofun rfl fits

theorem keeps_setUpvalue {u : Upvalue} (found : heap.get? h = some (.upvalue u)) (u' : Upvalue)
    (k : Handle) : heap.Keeps (heap.setUpvalue h u') k := keeps_modify found nofun rfl k

theorem Sound.pushCaptured {f u : Handle} {upvalues : Array Handle} {reserved : Nat}
    (sound : heap.Sound c) (found : heap.get? h = some (.closure f upvalues reserved))
    (fits : heap.kind? u = some .upvalue) : (heap.pushCaptured h u).Sound c := by
  obtain ⟨function, captured⟩ := sound.object h _ found
  refine sound.modify found nofun rfl ⟨function, fun u' mem => ?_⟩
  rcases Array.mem_push.mp mem with mem | rfl
  · exact captured u' mem
  · exact fits

theorem keeps_pushCaptured {f : Handle} {upvalues : Array Handle} {reserved : Nat}
    (found : heap.get? h = some (.closure f upvalues reserved)) (u k : Handle) :
    heap.Keeps (heap.pushCaptured h u) k := keeps_modify found nofun rfl k

theorem Sound.setMethods {name : Handle} {old : Table} (sound : heap.Sound c)
    (found : heap.get? h = some (.cls name old)) (fits : t.Sound c heap) :
    (heap.setMethods h t).Sound c :=
  sound.modify found nofun rfl ⟨(sound.object h _ found).1, fits⟩

theorem Sound.setFields {owner : Handle} {old : Table} (sound : heap.Sound c)
    (found : heap.get? h = some (.inst owner old)) (fits : t.Sound c heap) :
    (heap.setFields h t).Sound c :=
  sound.modify found nofun rfl ⟨(sound.object h _ found).1, fits⟩

end Heap

/-! ## Tables of a sound heap -/

namespace Table

/-- The keys of sound tables are determined by their handles. -/
theorem Sound.agrees (sound : t.Sound c heap) (found : heap.key? key.handle = some key) :
    t.Agrees key := by
  intro k v mem same
  have key := sound.keys k v mem
  rw [same, found] at key
  exact (Option.some.inj key).symm

theorem Sound.insert (sound : t.Sound c heap) (found : heap.key? key.handle = some key)
    (held : v.Held c heap) : (t.insert key v).2.Sound c heap := by
  have agrees := sound.agrees found
  refine ⟨sound.lawful.insert agrees, fun k w mem => ?_, fun k w mem => ?_⟩
  · rcases (sound.lawful.mem_entries_insert_iff agrees).mp mem with ⟨rfl, -⟩ | ⟨-, mem⟩
    · exact found
    · exact sound.keys k w mem
  · rcases (sound.lawful.mem_entries_insert_iff agrees).mp mem with ⟨-, rfl⟩ | ⟨-, mem⟩
    · exact held
    · exact sound.values k w mem

theorem Sound.erase (sound : t.Sound c heap) (found : heap.key? key.handle = some key) :
    (t.erase key).2.Sound c heap := by
  have agrees := sound.agrees found
  refine ⟨sound.lawful.erase agrees, fun k w mem => ?_, fun k w mem => ?_⟩
  · exact sound.keys k w ((sound.lawful.mem_entries_erase_iff agrees).mp mem).2
  · exact sound.values k w ((sound.lawful.mem_entries_erase_iff agrees).mp mem).2

theorem Sound.addAll {source : Table} (sound : t.Sound c heap) (sound' : source.Sound c heap) :
    (t.addAll source).Sound c heap := by
  obtain ⟨lawful, mem_iff⟩ := sound.lawful.addAll sound'.lawful fun e mem =>
    sound.agrees (sound'.keys e.1 e.2 mem)
  refine ⟨lawful, fun k w mem => ?_, fun k w mem => ?_⟩
  · rcases (mem_iff k w).mp mem with mem | ⟨mem, -⟩
    · exact sound'.keys k w mem
    · exact sound.keys k w mem
  · rcases (mem_iff k w).mp mem with mem | ⟨mem, -⟩
    · exact sound'.values k w mem
    · exact sound.values k w mem

theorem Sound.held_of_get? (sound : t.Sound c heap) (found : heap.key? key.handle = some key)
    (eq : t.get? key = some v) : v.Held c heap :=
  sound.values key v ((sound.lawful.get?_eq_some_iff (sound.agrees found)).mp eq)

end Table

end ScriptMachine
