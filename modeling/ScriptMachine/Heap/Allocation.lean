/-
# Allocation and interning

Every object enters the heap through `Heap.allocate`, which collects first if
a collection is due. The caller gives the roots; what the new object refers to
is kept as well, since nothing else may hold on to it yet.

Strings enter through `Heap.intern`, so that there is one string for a text.
-/

import ScriptMachine.Heap.Collection

namespace ScriptMachine

namespace Heap

/-- A collection is due before an allocation of this many bytes. -/
def mustCollect (heap : Heap) (bytes : Nat) : Bool :=
  heap.diagnostics.stressCollections || heap.threshold < heap.bytes + bytes

/-- Collect if a collection is due before the object is allocated. -/
@[inline] def makeRoom (heap : Heap) (object : Object) (roots : List Handle) : Heap :=
  if heap.mustCollect object.size then heap.collect (roots ++ object.references) else heap

/-- Put an object into the heap, after a collection if one is due. -/
@[inline] def allocate (heap : Heap) (object : Object) (roots : List Handle) : Handle × Heap :=
  (heap.makeRoom object roots).insert object

/-- The string with a text. -/
def lookup? (heap : Heap) (text : String) : Option Handle :=
  (heap.interned.findText? text (Hash.ofText text) heap.text?).map (·.handle)

/-- The string with a text, made if there is none. -/
@[inline] def intern (heap : Heap) (text : String) (roots : List Handle) : Handle × Heap :=
  match heap.lookup? text with
  | some h => (h, heap)
  | none =>
    let s : HashedText := { text }
    let (h, heap) := heap.allocate (.string s) roots
    -- Only the keys of this table matter; every value is nil.
    (h, { heap with interned := (heap.interned.insert ⟨h, s.hash⟩ .nil).2 })

end Heap

end ScriptMachine
