/-
# The heap

The heap keeps objects in cells. A handle is the index of a cell, cells are
never used a second time, and the cell of a freed object is empty; so a handle
names one object for ever, or nothing.

Each cell remembers what its object was charged when it was made. The sum over
all objects decides when a collection is due. An object that changes its size
afterwards keeps its charge until it is charged anew.

## Main definitions

* `Heap.get?`, `Heap.insert`, `Heap.modify` — the objects behind handles
* `Heap.text?`, `Heap.key?` — strings and the keys they make
* `Heap.recharge` — charge an object for its present size
* `HeapEvent` — what the heap records when it is asked to
-/

import ScriptMachine.Config
import ScriptMachine.Object

namespace ScriptMachine

/-- An object in the heap. -/
structure Cell where
  object : Object
  /-- The bytes that the object is charged. -/
  charge : Nat
  /-- The object was reached by the collection that is going on. -/
  marked : Bool

/-- What the heap records. -/
inductive HeapEvent
  | allocated (h : Handle) (kind : Kind) (bytes : Nat)
  | marked (h : Handle) (kind : Kind)
  /-- The references of the object are followed. -/
  | blackened (h : Handle) (kind : Kind)
  | freed (h : Handle) (kind : Kind)
  | collectionBegan
  | collectionEnded
  /-- The bytes in use before and after a collection, the next threshold, and how many objects were
  freed and how many strings forgotten. -/
  | summary (before after threshold objects strings : Nat)
  deriving DecidableEq, Repr

/-- A line of the log, without the handle. -/
def HeapEvent.line : HeapEvent → String
  | allocated _ kind bytes => s!"allocate {bytes} for {kind.name}"
  | marked _ kind => s!"mark {kind.name}"
  | blackened _ kind => s!"blacken {kind.name}"
  | freed _ kind => s!"free {kind.name}"
  | collectionBegan => "-- gc begin"
  | collectionEnded => "-- gc end"
  | summary before after threshold objects strings =>
    s!"   collected {before - after} bytes (from {before} to {after}) next at {threshold}; "
      ++ s!"{objects} objects freed, {strings} strings purged"

/-- The objects of a machine. -/
structure Heap where
  /-- The cell of each handle; that of a freed object is empty. -/
  cells : Array (Option Cell)
  /-- Every string in the heap, by its text. Being listed here keeps no string alive. -/
  interned : Table
  /-- Marked objects whose references are still to be followed, the latest one first. -/
  gray : List Handle
  /-- The bytes that all objects are charged. -/
  bytes : Nat
  /-- An allocation that would exceed this number of bytes collects first. -/
  threshold : Nat
  growth : Nat
  diagnostics : Diagnostics
  /-- How many collections there were. -/
  collections : Nat
  /-- What happened, the latest first, if it is to be recorded. -/
  events : List HeapEvent

namespace Heap

/-- The heap without objects. -/
def empty (config : Config) : Heap where
  cells := #[]
  interned := .empty
  gray := []
  bytes := 0
  threshold := config.firstThreshold
  growth := config.growth
  diagnostics := config.diagnostics
  collections := 0
  events := []

instance : Inhabited Heap := ⟨empty {}⟩

/-- Record an event, if events are recorded. -/
def record (heap : Heap) (event : HeapEvent) : Heap :=
  if heap.diagnostics.logCollections then { heap with events := event :: heap.events } else heap

/-! ## Objects -/

/-- The cell of a live object. -/
def cell? (heap : Heap) (h : Handle) : Option Cell := heap.cells[h.index]?.join

/-- The object behind a handle, if it is live. -/
def get? (heap : Heap) (h : Handle) : Option Object := (heap.cell? h).map (·.object)

/-- The object is live. -/
def contains (heap : Heap) (h : Handle) : Bool := (heap.cell? h).isSome

/-- The live objects, each with its handle, in the order of the handles. -/
def live (heap : Heap) : List (Handle × Cell) :=
  heap.cells.toList.zipIdx.filterMap fun (cell, index) => cell.map (⟨index⟩, ·)

/-- The number of live objects. -/
def size (heap : Heap) : Nat := heap.cells.countP Option.isSome

/-- Put an object into a new cell and charge it. -/
def insert (heap : Heap) (object : Object) : Handle × Heap :=
  let h : Handle := ⟨heap.cells.size⟩
  let cells := heap.cells.push (some ⟨object, object.size, false⟩)
  let heap := { heap with cells, bytes := heap.bytes + object.size }
  (h, heap.record (.allocated h object.kind object.size))

/-- Change the cell of a live object. -/
def modifyCell (heap : Heap) (h : Handle) (f : Cell → Cell) : Heap :=
  { heap with cells := heap.cells.modify h.index (Option.map f) }

/-- Change a live object. Its charge stays as it is. -/
def modify (heap : Heap) (h : Handle) (f : Object → Object) : Heap :=
  heap.modifyCell h fun cell => { cell with object := f cell.object }

/-- Charge a live object for its present size. -/
def recharge (heap : Heap) (h : Handle) : Heap :=
  match heap.cell? h with
  | none => heap
  | some cell =>
    let charge := cell.object.size
    let bytes := heap.bytes - cell.charge + charge
    { heap with bytes }.modifyCell h ({ · with charge })

/-! ## Objects of a kind -/

/-- The text of a live string. -/
def text? (heap : Heap) (h : Handle) : Option String :=
  match heap.get? h with
  | some (.string s) => some s.text
  | _ => none

/-- The key that a live string makes. -/
def key? (heap : Heap) (h : Handle) : Option Key :=
  match heap.get? h with
  | some (.string s) => some ⟨h, s.hash⟩
  | _ => none

/-- The value is a live string. -/
def isString (heap : Heap) (v : Value) : Bool := (v.handle?.bind heap.key?).isSome

def function? (heap : Heap) (h : Handle) : Option Function :=
  match heap.get? h with
  | some (.function f) => some f
  | _ => none

/-- The function of a live closure. -/
def closureFunction? (heap : Heap) (h : Handle) : Option Handle :=
  match heap.get? h with
  | some (.closure f _ _) => some f
  | _ => none

/-- The captured variables of a live closure. -/
def captured? (heap : Heap) (h : Handle) : Option (Array Handle) :=
  match heap.get? h with
  | some (.closure _ upvalues _) => some upvalues
  | _ => none

def upvalue? (heap : Heap) (h : Handle) : Option Upvalue :=
  match heap.get? h with
  | some (.upvalue u) => some u
  | _ => none

/-- The methods of a live class. -/
def methods? (heap : Heap) (h : Handle) : Option Table :=
  match heap.get? h with
  | some (.cls _ methods) => some methods
  | _ => none

/-- The class and the fields of a live instance. -/
def instance? (heap : Heap) (h : Handle) : Option (Handle × Table) :=
  match heap.get? h with
  | some (.inst c fields) => some (c, fields)
  | _ => none

/-! ## Changing objects in place -/

/-- Let a live object be a captured variable in this state. -/
def setUpvalue (heap : Heap) (h : Handle) (u : Upvalue) : Heap := heap.modify h fun _ => .upvalue u

/-- Add a captured variable to a live closure. -/
def pushCaptured (heap : Heap) (h upvalue : Handle) : Heap :=
  heap.modify h fun
    | .closure f upvalues reserved => .closure f (upvalues.push upvalue) reserved
    | object => object

/-- Change the methods of a live class. -/
def setMethods (heap : Heap) (h : Handle) (methods : Table) : Heap :=
  heap.modify h fun
    | .cls name _ => .cls name methods
    | object => object

/-- Change the fields of a live instance. -/
def setFields (heap : Heap) (h : Handle) (fields : Table) : Heap :=
  heap.modify h fun
    | .inst c _ => .inst c fields
    | object => object

/-! ## Cells after an operation -/

@[simp] theorem cells_record (heap : Heap) (event : HeapEvent) :
    (heap.record event).cells = heap.cells := by
  unfold record; split <;> rfl

@[simp] theorem cell?_record (heap : Heap) (event : HeapEvent) (h : Handle) :
    (heap.record event).cell? h = heap.cell? h := by simp [cell?]

@[simp] theorem cell?_empty (config : Config) (h : Handle) : (empty config).cell? h = none := by
  simp [cell?, empty]

/-- The handle of a new object is that of the next cell. -/
theorem insert_fst (heap : Heap) (object : Object) :
    (heap.insert object).1 = ⟨heap.cells.size⟩ := rfl

/-- A new object is found under its handle, and nothing else changes. -/
theorem cell?_insert (heap : Heap) (object : Object) (h : Handle) :
    (heap.insert object).2.cell? h =
      if h = (heap.insert object).1 then some ⟨object, object.size, false⟩ else heap.cell? h := by
  simp only [insert, cell?, cells_record, Array.getElem?_push]
  by_cases eq : h.index = heap.cells.size
  · have : h = ⟨heap.cells.size⟩ := by cases h; simp_all
    simp [this]
  · have : h ≠ ⟨heap.cells.size⟩ := fun e => eq (by rw [e])
    simp [eq, this]

/-- Changing a cell changes what is found under its handle, and nothing else. -/
theorem cell?_modifyCell (heap : Heap) (h k : Handle) (f : Cell → Cell) :
    (heap.modifyCell h f).cell? k = if k = h then (heap.cell? k).map f else heap.cell? k := by
  simp only [modifyCell, cell?, Array.getElem?_modify]
  by_cases eq : h.index = k.index
  · have : k = h := by cases h; cases k; simp_all
    subst this
    cases heap.cells[k.index]? with
    | none => simp
    | some cell => cases cell <;> simp
  · have : k ≠ h := fun e => eq (by rw [e])
    simp [eq, this]

end Heap

end ScriptMachine
