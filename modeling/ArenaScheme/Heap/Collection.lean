import ArenaScheme.Heap.Basic

/-! Collection by sliding. Marking finds every record that the roots, the symbol table and the
pinned records lead to; planning gives each marked record the place where it will stand;
relocation redirects every reference; sliding moves the records. Their order never changes. -/

namespace ArenaScheme

namespace Memory

def startsFrom (m : Memory) (top : Nat) : (fuel : Nat) → Ref → Array Ref → Array Ref
  | 0, _, found => found
  | fuel + 1, r, found =>
    if r < top then m.startsFrom top fuel (r + m.recordSize r) (found.push r) else found

/-- The records below `top`, in order. -/
def starts (m : Memory) (top : Nat) : Array Ref := m.startsFrom top top 0 #[]

/-- The references out of the record at `r`, in order. -/
def references (m : Memory) (r : Ref) : List Ref :=
  ((m.referenceAddresses r).map m.word).filter (· != absent)

/-- Marks what `pending` leads to, the first entry first. Gives the first reference that lies
past the end, if there is one; marks made until then stay. -/
def markFrom (top : Nat) : (fuel : Nat) → List Ref → Memory → Option Ref × Memory
  | 0, _, m => (none, m)
  | _ + 1, [], m => (none, m)
  | fuel + 1, r :: pending, m =>
    if r = absent then markFrom top fuel pending m
    else if top ≤ r then (some r, m)
    else if m.isMarked r then markFrom top fuel pending m
    else markFrom top fuel ((m.references r).reverse ++ pending) (m.mark r)

/-- Gives each marked record its new place, and the number of bytes in marked records. -/
def plan (m : Memory) (starts : Array Ref) : Nat × Memory :=
  starts.foldl
    (fun (live, m) r =>
      if m.isMarked r then (live + m.recordSize r, m.setForward r live) else (live, m))
    (0, m)

/-- Whether the record at `r` has a new place. -/
def canForward (m : Memory) (top : Nat) (r : Ref) : Bool := r < top && m.isMarked r

/-- Redirects the references at the given addresses, up to the first that cannot be followed. -/
def relocateFields (top : Nat) : List Nat → Memory → Option Ref × Memory
  | [], m => (none, m)
  | a :: addresses, m =>
    let r := m.word a
    if r = absent then relocateFields top addresses m
    else if m.canForward top r then relocateFields top addresses (m.setWord a (m.forward r))
    else (some r, m)

/-- The addresses of all references in marked records. -/
def liveAddresses (m : Memory) (starts : Array Ref) : List Nat :=
  (starts.toList.filter m.isMarked).flatMap m.referenceAddresses

/-- Moves each marked record to its new place and clears its mark. -/
def slide (m : Memory) (starts : Array Ref) : Memory :=
  starts.foldl
    (fun m r =>
      if m.isMarked r then
        let target := m.forward r
        let size := m.recordSize r
        (m.unmark r).move r target size
      else m)
    m

end Memory

namespace HeapM

private def failOn (damage : Ref → Damage) : Option Ref → HeapM Unit
  | none => pure ()
  | some r => throw (.corruptHeap (damage r))

/-- Every reference that marking starts from, in the order in which they are followed. -/
def markingOrder (h : Heap) : List Ref :=
  ((h.memory.starts h.top).filter h.memory.isPinned).toList.reverse ++
    h.symbols :: h.roots.toList.reverse

/-- More steps than marking can take: each record is marked once and has fewer references than
the memory has bytes. -/
def markingFuel (h : Heap) : Nat := (h.top + 1) * (h.capacity + 1) + h.roots.size + 1

def markPhase : HeapM Unit := do
  let bad ← modifyGet fun h =>
    let order := markingOrder h
    let fuel := markingFuel h
    let (bad, m) := Memory.markFrom h.top fuel order h.memory
    (bad, { h with memory := m })
  failOn .pastEnd bad

def relocateRoots : HeapM Unit := do
  let h ← get
  let bad := h.roots.findIdx (!h.memory.canForward h.top ·)
  let culprit := h.roots[bad]?
  modify fun h =>
    { h with roots := h.roots.mapIdx fun i r => if i < bad then h.memory.forward r else r }
  failOn .unmarked culprit

def relocateSymbols : HeapM Unit := do
  let h ← get
  if h.symbols = absent then return
  if h.memory.canForward h.top h.symbols then
    modify fun h => { h with symbols := h.memory.forward h.symbols }
  else throw (.corruptHeap (.unmarked h.symbols))

def relocatePhase (starts : Array Ref) : HeapM Unit := do
  let bad ← modifyGet fun h =>
    let addresses := h.memory.liveAddresses starts
    let (bad, m) := Memory.relocateFields h.top addresses h.memory
    (bad, { h with memory := m })
  failOn .unmarked bad
  relocateRoots
  relocateSymbols

/-- How far it is from `low` up to `high`, as a number of 32 bits. Only in a damaged heap can more
bytes be live than were in use. -/
def bytesBetween (low high : Nat) : Nat := (high + addressSpace - low) % addressSpace

/-- Reclaims every record that nothing leads to. -/
def collect : HeapM Unit := do
  markPhase
  let starts := (← get).memory.starts (← get).top
  let live ← modifyGet fun h =>
    let (live, m) := h.memory.plan starts
    (live, { h with memory := m })
  relocatePhase starts
  let event ← modifyGet fun h =>
    let number := h.collections + 1
    (.collection number (bytesBetween live h.top) live,
      { h with memory := h.memory.slide starts, top := live, collections := number })
  note event

end HeapM

end ArenaScheme
