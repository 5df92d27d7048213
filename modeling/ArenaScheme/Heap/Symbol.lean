import ArenaScheme.Heap.Allocation
import ArenaScheme.Text.Digest
import ArenaScheme.Text.Utf8

/-! The symbol table: one record for each name, in a search tree ordered by the bytes of the
names. A symbol holds its left and right subtree, the digest and the length of its name, and then
the bytes of the name. -/

namespace ArenaScheme

namespace Heap

def nameBytes (h : Heap) (symbol : Ref) : List UInt8 :=
  (List.range (h.field symbol 3)).map fun i => h.memory.byte (fieldAddress symbol 4 + i)

/-- The digest that was stored when the symbol was made. -/
def nameDigest (h : Heap) (symbol : Ref) : Nat := h.looseField symbol 2

/-- Looks for a name below `node`. -/
def findSymbolFrom (h : Heap) (name : List UInt8) : (fuel : Nat) → (node : Ref) → Option Ref
  | 0, _ => none
  | fuel + 1, node =>
    if node = absent then none
    else match compare name (h.nameBytes node) with
      | .eq => some node
      | .lt => h.findSymbolFrom name fuel (h.field node 0)
      | .gt => h.findSymbolFrom name fuel (h.field node 1)

def findSymbol (h : Heap) (name : List UInt8) : Option Ref :=
  h.findSymbolFrom name h.capacity h.symbols

/-- The node below which a new name belongs, and the field of it that will lead there. -/
def symbolLink (h : Heap) (name : List UInt8) :
    (fuel : Nat) → (node : Ref) → (link : Option (Ref × Nat)) → Option (Ref × Nat)
  | 0, _, link => link
  | fuel + 1, node, link =>
    if node = absent then link
    else
      let side := if compare name (h.nameBytes node) == .lt then 0 else 1
      h.symbolLink name fuel (h.field node side) (some (node, side))

end Heap

namespace HeapM

open Heap

/-- Hangs a new symbol into the tree. -/
def attachSymbol (name : List UInt8) (symbol : Ref) : HeapM Unit := do
  let h ← get
  match h.symbolLink name h.capacity h.symbols none with
  | some (node, side) => setField node side symbol
  | none => modify fun h => { h with symbols := symbol }

/-- The symbol with the given name, made if there is none yet, for any digest of names. -/
def internWith (digest : List UInt8 → Nat) (name : String) : HeapM Ref := do
  let bytes := name.toUTF8.toList
  if let some symbol := (← get).findSymbol bytes then return symbol
  let size := symbolSize bytes.length
  checkSize size
  let r ← reserve .symbol size
  modifyMemory fun m =>
    (m.writeWords (fieldAddress r 0) [absent, absent, digest bytes, bytes.length]).writeBytes
      (fieldAddress r 4) bytes
  attachSymbol bytes r
  return r

/-- The one symbol with the given name. -/
def intern (name : String) : HeapM Ref := internWith Text.digest name

end HeapM

end ArenaScheme
