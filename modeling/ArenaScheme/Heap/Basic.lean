import ArenaScheme.Fault
import ArenaScheme.Journal
import ArenaScheme.Record

/-! The heap: a memory whose first `top` bytes are records laid end to end, a stack of roots, and
the symbol table's root. The four singletons stand at fixed positions. -/

namespace ArenaScheme

/-- An index into the root stack. -/
abbrev Slot := Nat

structure Heap where
  memory : Memory
  /-- Records fill the memory up to here. -/
  top : Nat
  /-- References that a collection keeps alive and updates, the newest last. -/
  roots : Array Ref
  /-- The root of the symbol tree. -/
  symbols : Ref
  /-- While set, new records are pinned: they are never reclaimed and never move. -/
  pinning : Bool
  collections : Nat
  /-- The newest event first. -/
  journal : List Event
  deriving Inhabited

/-- A computation on a heap; a fault leaves the heap as it was when the fault arose. -/
abbrev HeapM := EStateM Fault Heap

namespace Heap

/-- No position reaches this size. -/
def maxSize : Nat := 4294967295

def minSize : Nat := 256

def null : Ref := 0
def truth : Ref := 5
def falsity : Ref := 10
def eof : Ref := 15

def boolean (b : Bool) : Ref := if b then truth else falsity

/-- Only the false value counts as false. -/
def isTrue (value : Ref) : Bool := value != falsity

/-- A heap that collects for the first time when `capacity` bytes are in use. -/
def new (capacity : Nat) : Heap where
  memory :=
    ((((Memory.zeros (max capacity minSize)).putHeader null .null true).putHeader
      truth .truth true).putHeader falsity .falsity true).putHeader eof .eof true
  top := 20
  roots := #[]
  symbols := absent
  pinning := false
  collections := 0
  journal := []

/-- Bytes in records, live or not. -/
def used (h : Heap) : Nat := h.top

def capacity (h : Heap) : Nat := h.memory.size

@[inline] def rootCount (h : Heap) : Nat := h.roots.size

@[inline] def root (h : Heap) (slot : Slot) : Ref := h.roots[slot]?.getD null

@[inline] def kind (h : Heap) (r : Ref) : Kind := h.memory.kind r

@[inline] def field (h : Heap) (r : Ref) (k : Nat) : Nat := h.memory.field r k

/-- A field of whatever `r` leads to. Any value can stand where a frame is wanted, and what its
fields hold need not be references. -/
@[inline] def looseField (h : Heap) (r : Ref) (k : Nat) : Nat := h.memory.word (looseAddress r k)

theorem looseField_of_lt (h : Heap) {r : Ref} {k : Nat} (lt : fieldAddress r k < addressSpace) :
    h.looseField r k = h.field r k := by
  rw [looseField, looseAddress_of_lt lt, field, Memory.field]

def typeName (h : Heap) (r : Ref) : String := (h.kind r).typeName

end Heap

namespace HeapM

open Heap

/-- Asks a question that may fail and changes nothing. -/
@[inline] def query {α : Type} (question : Heap → Except Fault α) : HeapM α := fun h =>
  match question h with
  | .ok a => .ok a h
  | .error fault => .error fault h

/-- Turns a fault into a result. -/
def attempt {α : Type} (action : HeapM α) : HeapM (Except Fault α) := fun h =>
  match action h with
  | .ok a h => .ok (.ok a) h
  | .error fault h => .ok (.error fault) h

@[inline] def modifyMemory (f : Memory → Memory) : HeapM Unit :=
  modify fun h => { h with memory := f h.memory }

@[inline] def setField (r : Ref) (k value : Nat) : HeapM Unit :=
  modifyMemory (·.setField r k value)

@[inline] def setLooseField (r : Ref) (k value : Nat) : HeapM Unit :=
  modifyMemory (·.setWord (looseAddress r k) value)

def note (event : Event) : HeapM Unit :=
  modify fun h => { h with journal := event :: h.journal }

@[inline] def pushRoot (value : Ref) : HeapM Slot :=
  modifyGet fun h => (h.roots.size, { h with roots := h.roots.push value })

@[inline] def root (slot : Slot) : HeapM Ref := return (← get).root slot

@[inline] def setRoot (slot : Slot) (value : Ref) : HeapM Unit :=
  modify fun h => { h with roots := h.roots.setIfInBounds slot value }

/-- The height of the root stack, to come back to with `releaseRoots`. -/
@[inline] def rootCount : HeapM Nat := return (← get).rootCount

/-- Drops every root from `count` on. -/
@[inline] def releaseRoots (count : Nat) : HeapM Unit :=
  modify fun h => { h with roots := h.roots.shrink count }

/-- The values in the slots from `start` up to `stop`. -/
def rootsBetween (start stop : Slot) : HeapM (List Ref) :=
  return ((← get).roots.extract start stop).toList

end HeapM

end ArenaScheme
