/-
# Linked values have the same text

The text of a bound method is that of its method, which may be a bound method
itself. The heap looks as far as it has objects. This is far enough, because a
method is older than what binds it. Hence the text does not depend on what else
is in the heap.

## Main results

* `Sound.textWithin_isSome` — a heap looks far enough for the text of every object
* `Matches.display` — linked values have the same text
-/

import ScriptMachine.Proofs.Correspondence.Heaps
import ScriptMachine.Proofs.Heap.Rendering

namespace ScriptMachine

namespace Heap

variable {p : Pairing} {heap₁ heap₂ heap : Heap} {h₁ h₂ h : Handle} {o₁ o₂ : Object}
  {v₁ v₂ : Value} {bound₁ bound₂ : Nat}

/-- Methods are older than what binds them, unless handles were made up. -/
theorem Sound.descending {c : Custody} (sound : heap.Sound c) (known : c ≠ .any) :
    heap.Descending := by
  rintro h method ⟨receiver, found⟩
  obtain ⟨-, -, before⟩ := sound.object h _ found
  exact before known

/-- A heap finds a text for every handle, unless handles were made up. -/
theorem Sound.textWithin_isSome {c : Custody} (sound : heap.Sound c) (known : c ≠ .any)
    (h : Handle) : (heap.textWithin heap.size h).isSome := by
  obtain ⟨-, text, -, -, eq⟩ := (sound.descending known).exists_renders (h := h) older_lt_size
  rw [eq, Option.isSome_some]

/-! ## The same text -/

theorem Matches.functionName? {f₁ f₂ : Function} (same : Matches p heap₁ heap₂)
    (matching : f₁.Matches (Linked p heap₁ heap₂) f₂) :
    heap₁.functionName? f₁ = heap₂.functionName? f₂ := by
  obtain ⟨name₁, _, _, _⟩ := f₁
  obtain ⟨name₂, _, _, _⟩ := f₂
  cases matching.name with
  | none => rfl
  | some linked => exact same.text? linked

theorem Matches.functionText {f₁ f₂ : Function} (same : Matches p heap₁ heap₂)
    (matching : f₁.Matches (Linked p heap₁ heap₂) f₂) :
    heap₁.functionText f₁ = heap₂.functionText f₂ := by
  rw [Heap.functionText, Heap.functionText, same.functionName? matching]

theorem Matches.className (same : Matches p heap₁ heap₂) (linked : Linked p heap₁ heap₂ h₁ h₂) :
    heap₁.className h₁ = heap₂.className h₂ := by
  rw [Heap.className, Heap.className, same.text? linked]

theorem Matches.objectText (same : Matches p heap₁ heap₂)
    (matching : o₁.Matches (Linked p heap₁ heap₂) o₂) :
    heap₁.objectText o₁ = heap₂.objectText o₂ := by
  cases matching with
  | string text => exact text
  | function matching => exact same.functionText matching
  | @closure f g _ _ _ _ linked _ =>
    have functions := same.function? linked
    rw [Heap.objectText, Heap.objectText]
    generalize heap₁.function? f = f₁ at functions
    generalize heap₂.function? g = f₂ at functions
    cases functions with
    | none => rfl
    | some matching => exact same.functionText matching
  | opened | closed | bound | native => rfl
  | cls named _ => exact same.className named
  | inst owned _ =>
    obtain ⟨o₁, o₂, found₁, found₂, matching⟩ := same.get? owned
    rw [Heap.objectText, Heap.objectText, found₁, found₂]
    cases matching with
    | cls named _ => exact congrArg (s!"{·} instance") (same.className named)
    | _ => rfl

/-- Linked handles have the same text, however far the heaps look. -/
theorem Matches.textWithin {text₁ text₂ : String} (same : Matches p heap₁ heap₂)
    (linked : Linked p heap₁ heap₂ h₁ h₂) (found₁ : heap₁.textWithin bound₁ h₁ = some text₁)
    (found₂ : heap₂.textWithin bound₂ h₂ = some text₂) : text₁ = text₂ := by
  induction bound₁ generalizing bound₂ h₁ h₂ with
  | zero =>
    obtain ⟨o₁, o₂, object₁, object₂, matching⟩ := same.get? linked
    have texts := same.objectText matching
    unfold Heap.textWithin at found₁ found₂
    rw [object₁] at found₁
    rw [object₂] at found₂
    cases matching with
    | bound => cases found₁
    | _ => exact (Option.some.inj found₁).symm.trans (texts.trans (Option.some.inj found₂))
  | succ bound₁ ih =>
    obtain ⟨o₁, o₂, object₁, object₂, matching⟩ := same.get? linked
    have texts := same.objectText matching
    unfold Heap.textWithin at found₁ found₂
    rw [object₁] at found₁
    rw [object₂] at found₂
    cases matching with
    | bound _ linked =>
      cases bound₂ with
      | zero => cases found₂
      | succ bound₂ => exact ih linked found₁ found₂
    | _ => exact (Option.some.inj found₁).symm.trans (texts.trans (Option.some.inj found₂))

/-- Linked values have the same text. -/
theorem Matches.display (same : Matches p heap₁ heap₂)
    (matching : v₁.Matches (Linked p heap₁ heap₂) v₂) : heap₁.display v₁ = heap₂.display v₂ := by
  cases matching with
  | nil | bool | number => rfl
  | @object h₁ h₂ linked =>
    obtain ⟨text₁, found₁⟩ := Option.isSome_iff_exists.mp
      (same.sound₁.textWithin_isSome nofun h₁)
    obtain ⟨text₂, found₂⟩ := Option.isSome_iff_exists.mp
      (same.sound₂.textWithin_isSome nofun h₂)
    rw [Heap.display, Heap.display, found₁, found₂, same.textWithin linked found₁ found₂]

end Heap

end ScriptMachine
