/-
# Rendering ends

The text of a bound method is that of its method. Anything may be a method, so a bound method may be
the method of another one, and the text may be many handles away. Nothing looks out for circles on
the way. There are none as long as methods are older than the bound methods that refer to them: as
handles are handed out one after the other, they descend along the way, and each live object is
visited once at most.

## Main definitions

* `Heap.Binds` — an object is a bound method of another
* `Heap.Descending` — methods are older than what binds them
* `Heap.Renders`, `Heap.RendersValue` — rendering, with the objects that it visits
* `Heap.older` — the number of objects that are older than a handle

## Main results

* `Descending.not_transGen` — no way along methods leads back
* `Descending.exists_renders` — rendering ends, and a heap looks far enough
* `Descending.rendersValue_display` — the text of a value is what rendering gives
-/

import Mathlib.Logic.Relation
import ScriptMachine.Heap.Display
import ScriptMachine.Proofs.Heap.Marking

namespace ScriptMachine

namespace Heap

/-- The object behind a handle is a bound method, and this is the handle of its method. -/
def Binds (heap : Heap) (h method : Handle) : Prop :=
  ∃ receiver, heap.get? h = some (.bound receiver method)

/-- The method of a bound method is older than the bound method. -/
def Descending (heap : Heap) : Prop := ∀ h method, heap.Binds h method → method.index < h.index

/-- Rendering a handle, however far its text is away: the live objects that are visited, one after
the other, and the text. -/
inductive Renders (heap : Heap) : Handle → List Handle → String → Prop
  | freed {h : Handle} : heap.get? h = none → Renders heap h [] "<freed>"
  | plain {h : Handle} {object : Object} : heap.get? h = some object → object.kind ≠ .bound →
      Renders heap h [h] (heap.objectText object)
  | bound {h method : Handle} {receiver : Value} {visited : List Handle} {text : String} :
      heap.get? h = some (.bound receiver method) → Renders heap method visited text →
      Renders heap h (h :: visited) text

/-- Rendering a value. -/
inductive RendersValue (heap : Heap) : Value → List Handle → String → Prop
  | nil : RendersValue heap .nil [] "nil"
  | bool (b : Bool) : RendersValue heap (.bool b) [] (if b then "true" else "false")
  | number (n : Number) : RendersValue heap (.number n) [] n.shown
  | object {h : Handle} {visited : List Handle} {text : String} :
      heap.Renders h visited text → RendersValue heap (.object h) visited text

variable {heap : Heap} {h k : Handle} {visited : List Handle} {text : String} {bound : Nat}

/-! ## The way along methods -/

theorem Renders.contains (renders : heap.Renders h visited text) :
    ∀ k ∈ visited, heap.contains k := by
  induction renders with
  | freed => simp
  | plain found => simpa using contains_of_get? found
  | bound found _ ih => exact List.forall_mem_cons.mpr ⟨contains_of_get? found, ih⟩

namespace Descending

/-- Handles descend along methods. -/
theorem index_lt (descending : heap.Descending) (way : Relation.TransGen heap.Binds h k) :
    k.index < h.index := by
  induction way with
  | single binds => exact descending _ _ binds
  | tail _ binds ih => exact Nat.lt_trans (descending _ _ binds) ih

theorem not_transGen (descending : heap.Descending) (h : Handle) :
    ¬ Relation.TransGen heap.Binds h h :=
  fun way => absurd (descending.index_lt way) (Nat.lt_irrefl _)

theorem index_le (descending : heap.Descending) (renders : heap.Renders h visited text) :
    ∀ k ∈ visited, k.index ≤ h.index := by
  induction renders with
  | freed => simp
  | plain => simp
  | bound found _ ih =>
    have older := descending _ _ ⟨_, found⟩
    exact List.forall_mem_cons.mpr ⟨Nat.le_refl _, fun k mem =>
      Nat.le_trans (ih k mem) (Nat.le_of_lt older)⟩

/-- No object is visited twice. -/
theorem nodup (descending : heap.Descending) (renders : heap.Renders h visited text) :
    visited.Nodup := by
  induction renders with
  | freed => exact List.nodup_nil
  | plain => simp
  | bound found renders ih =>
    have older := descending _ _ ⟨_, found⟩
    refine List.nodup_cons.mpr ⟨fun again => ?_, ih⟩
    exact absurd (descending.index_le renders _ again) (Nat.not_le_of_lt older)

end Descending

/-! ## Looking far enough -/

/-- The number of live objects that are older than a handle. -/
def older (heap : Heap) (h : Handle) : Nat := (heap.cells.toList.take h.index).countP Option.isSome

theorem older_lt {method : Handle} (live : heap.contains method) (before : method.index < h.index) :
    heap.older method < heap.older h := by
  -- The older object itself is among those that are older than the other one.
  have cell : (heap.cells.toList.take h.index)[method.index]?.join.isSome := by
    rw [List.getElem?_take_of_lt before, Array.getElem?_toList]
    exact live
  obtain ⟨c, at_⟩ : ∃ c, (heap.cells.toList.take h.index)[method.index]? = some (some c) := by
    obtain ⟨c, eq⟩ := Option.isSome_iff_exists.mp cell
    exact ⟨c, Option.join_eq_some_iff.mp eq⟩
  obtain ⟨inside, eq⟩ := List.getElem?_eq_some_iff.mp at_
  have split := List.take_append_drop method.index (heap.cells.toList.take h.index)
  have first : (heap.cells.toList.take h.index).take method.index =
      heap.cells.toList.take method.index := by
    rw [List.take_take, Nat.min_eq_left (Nat.le_of_lt before)]
  have rest := List.drop_eq_getElem_cons inside
  rw [older, older, ← split, List.countP_append, first, rest, eq, List.countP_cons_of_pos rfl]
  omega

theorem older_lt_size (live : heap.contains h) : heap.older h < heap.size := by
  have all : heap.older ⟨heap.cells.size⟩ = heap.size := by
    rw [older, size, ← Array.length_toList, List.take_length, Array.countP_toList]
  exact all ▸ older_lt live (lt_size_of_contains live)

/-- Rendering a handle ends. It visits no more objects than are at least as old, and a heap that
looks so far finds the text. -/
theorem Descending.exists_renders (descending : heap.Descending)
    (far : heap.contains h → heap.older h < bound) :
    ∃ visited text, heap.Renders h visited text ∧ visited.length ≤ bound ∧
      heap.textWithin bound h = some text := by
  -- By induction on how far the heap looks; the next method is older, so less far is enough.
  induction bound generalizing h with
  | zero =>
    have freed : heap.get? h = none := by
      by_contra some
      obtain ⟨object, found⟩ := Option.ne_none_iff_exists'.mp some
      exact absurd (far (contains_of_get? found)) (Nat.not_lt_zero _)
    exact ⟨[], _, .freed freed, Nat.le_refl 0, by rw [textWithin, freed]⟩
  | succ bound ih =>
    unfold textWithin
    split
    next freed => exact ⟨[], _, .freed freed, Nat.zero_le _, rfl⟩
    -- A method that has been freed since has a text at once.
    next receiver method found =>
      have here := far (contains_of_get? found)
      obtain ⟨visited, text, renders, le, eq⟩ := ih (h := method) fun live => by
        have := older_lt live (descending h method ⟨receiver, found⟩)
        omega
      exact ⟨h :: visited, text, .bound found renders, Nat.succ_le_succ le, eq⟩
    next object other found =>
      refine ⟨[h], _, .plain found fun kind => ?_, by simp, rfl⟩
      cases object <;> cases kind
      exact other _ _ rfl

/-- The text of a value is what rendering it gives. -/
theorem Descending.rendersValue_display (descending : heap.Descending) (v : Value) :
    ∃ visited, heap.RendersValue v visited (heap.display v) ∧ visited.Nodup ∧
      (∀ h ∈ visited, heap.contains h) ∧ visited.length ≤ heap.size := by
  cases v with
  | nil => exact ⟨[], .nil, List.nodup_nil, by simp, Nat.zero_le _⟩
  | bool b => exact ⟨[], .bool b, List.nodup_nil, by simp, Nat.zero_le _⟩
  | number n => exact ⟨[], .number n, List.nodup_nil, by simp, Nat.zero_le _⟩
  | object h =>
    obtain ⟨visited, text, renders, le, eq⟩ := descending.exists_renders (h := h) older_lt_size
    have same : heap.display (.object h) = text := by rw [display, eq, Option.getD_some]
    exact ⟨visited, same ▸ .object renders, descending.nodup renders, renders.contains, le⟩

end Heap

end ScriptMachine
