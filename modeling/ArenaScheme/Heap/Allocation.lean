import ArenaScheme.Heap.Collection

/-! Allocation. A record goes at the top; when it would pass the capacity, a collection runs
first, and then the memory doubles until the record fits and half of it is free. Every constructor
protects the references it was given while that happens. -/

namespace ArenaScheme

/-- Doubles `size` until it reaches `goal`. -/
def doubleUntil (goal : Nat) : (fuel : Nat) → (size : Nat) → Nat
  | 0, size => size
  | fuel + 1, size => if size < goal then doubleUntil goal fuel (2 * size) else size

namespace HeapM

open Heap

/-- Makes room for `request` more bytes after a collection. -/
def grow (request : Nat) : HeapM Unit := do
  let h ← get
  let needed := h.top + request
  if needed > maxSize then throw (.heapExhausted request)
  let goal := max needed (2 * h.top)
  let before := h.capacity
  let after := min (doubleUntil goal goal before) maxSize
  if after != before then
    note (.growth before after)
    modifyMemory (·.resize after)

/-- Collects with `kept` as further roots, then grows; gives `kept` as it is afterwards. -/
def makeRoom {n : Nat} (request : Nat) (kept : Vector Ref n) : HeapM (Vector Ref n) := do
  let base ← rootCount
  modify fun h => { h with roots := h.roots ++ kept.toArray }
  let moved ← tryFinally (do collect; return (← get).roots) (releaseRoots base)
  grow request
  return Vector.ofFn fun i => moved[base + i]?.getD null

/-- Reserves `size` bytes for a record and writes its header. The references in `kept` may be
moved by a collection and are given back as they are afterwards. -/
def allocate {n : Nat} (kind : Kind) (size : Nat) (kept : Vector Ref n) :
    HeapM (Ref × Vector Ref n) := do
  let h ← get
  let full := h.top + size > h.capacity
  let kept ← if full then makeRoom size kept else pure kept
  let r ← modifyGet fun h =>
    (h.top,
      { h with top := h.top + size, memory := h.memory.putHeader h.top kind h.pinning })
  return (r, kept)

/-- Allocates a record for which no references have to be kept. -/
def reserve (kind : Kind) (size : Nat) : HeapM Ref := do
  let (r, _) ← allocate kind size #v[]
  return r

/-- Refuses a record that no memory could hold. -/
def checkSize (size : Nat) : HeapM Unit :=
  if size > maxSize then throw (.recordTooLarge size) else pure ()

/-- A 64-bit integer, kept as its residue modulo `2 ^ 64`. -/
def integer (value : Int) : HeapM Ref := do
  let r ← reserve .integer (fieldsSize 2)
  let residue := (value % 18446744073709551616).toNat
  modifyMemory (·.writeWords (fieldAddress r 0) [residue, residue / 4294967296])
  return r

/-- A float, kept as its bits. -/
def float (bits : UInt64) : HeapM Ref := do
  let r ← reserve .float (fieldsSize 2)
  modifyMemory (·.writeWords (fieldAddress r 0) [bits.toNat, bits.toNat / 4294967296])
  return r

def character (c : Char) : HeapM Ref := do
  let r ← reserve .char (fieldsSize 1)
  setField r 0 c.toNat
  return r

def cons (car cdr : Ref) : HeapM Ref := do
  let (r, kept) ← allocate .pair (fieldsSize 2) #v[car, cdr]
  modifyMemory (·.writeWords (fieldAddress r 0) kept.toList)
  return r

def string (text : String) : HeapM Ref := do
  let codes := text.toList.map Char.toNat
  let size := sequenceSize codes.length
  checkSize size
  let r ← reserve .string size
  modifyMemory (·.writeWords (fieldAddress r 0) (codes.length :: codes))
  return r

def makeString (length : Nat) (fill : Char) : HeapM Ref := do
  let size := sequenceSize length
  checkSize size
  let r ← reserve .string size
  setField r 0 length
  modifyMemory (·.fillWords (fieldAddress r 1) fill.toNat length)
  return r

def makeVector (length : Nat) (fill : Ref) : HeapM Ref := do
  let size := sequenceSize length
  checkSize size
  let (r, kept) ← allocate .vector size #v[fill]
  setField r 0 length
  modifyMemory (·.fillWords (fieldAddress r 1) kept[0] length)
  return r

/-- A vector of every root from `base` on, which are then released. -/
def vectorFromRoots (base : Slot) : HeapM Ref := do
  let length := (← rootCount) - base
  let size := sequenceSize length
  checkSize size
  let r ← reserve .vector size
  let elements ← rootsBetween base (base + length)
  modifyMemory (·.writeWords (fieldAddress r 0) (length :: elements))
  releaseRoots base
  return r

/-- Conses the values in the `count` slots from `start` on, the last one first, onto `tail`. -/
def listOnto (start : Slot) : (count : Nat) → (tail : Ref) → HeapM Ref
  | 0, tail => pure tail
  | count + 1, tail => do
    let list ← cons (← root (start + count)) tail
    listOnto start count list

/-- A list of every root from `base` on, which are then released, ending in `tail`. -/
def listFromRoots (base : Slot) (tail : Ref) : HeapM Ref := do
  let list ← listOnto base ((← rootCount) - base) tail
  releaseRoots base
  return list

def builtin (name : Ref) (index : Nat) : HeapM Ref := do
  let (r, kept) ← allocate .builtin (fieldsSize 2) #v[name]
  modifyMemory (·.writeWords (fieldAddress r 0) [kept[0], index])
  return r

def closure (name formals env body : Ref) (arity : Nat) (rest : Bool) : HeapM Ref := do
  let (r, kept) ← allocate .closure closureSize #v[name, formals, env, body]
  modifyMemory fun m =>
    (m.writeWords (fieldAddress r 0) (kept.toList ++ [arity])).setByte (fieldAddress r 5)
      (if rest then 1 else 0)
  return r

/-- A frame without bindings. -/
def environment (outer : Option Ref) : HeapM Ref := do
  let (r, kept) ← allocate .environment (fieldsSize 2) #v[outer.getD null]
  let outer := if outer.isSome then kept[0] else absent
  modifyMemory (·.writeWords (fieldAddress r 0) [outer, absent])
  return r

def tagged (marker value : Ref) : HeapM Ref := do
  let (r, kept) ← allocate .tagged (fieldsSize 2) #v[marker, value]
  modifyMemory (·.writeWords (fieldAddress r 0) kept.toList)
  return r

end HeapM

end ArenaScheme
