import ArenaScheme.Datum
import ArenaScheme.Heap.Object
import Std.Data.TreeSet

/-! Copying a value out of the heap. Shared parts are copied each time they occur; a pair or a
vector that contains itself has no copy. -/

namespace ArenaScheme

namespace Heap

/-- A bound on how deep a value can be nested: between two pairs or vectors of a path, which are
all different, lie only tagged values, which lead to older records. -/
def nestingBound (h : Heap) : Nat := (h.capacity + 1) * (h.capacity + 1)

/-- The copy of a value that is reached through the pairs and vectors in `path`. -/
def datumFrom (h : Heap) : (fuel : Nat) → (path : Std.TreeSet Ref) → Ref → Except Fault Datum
  | 0, _, _ => .error (.wrongType "acyclic list" "cyclic list")
  | fuel + 1, path, r => do
    match h.object r with
    | .integer value => return .integer value
    | .float bits => return .float bits
    | .symbol => return .symbol (← h.symbolName r)
    | .string _ => return .string (← h.stringValue r)
    | .boolean value => return .boolean value
    | .char value => return .char value
    | .null => return .null
    | .eof => return .eof
    | .pair car cdr =>
      if path.contains r then throw (.wrongType "acyclic list" "cyclic list")
      let path := path.insert r
      return .pair (← h.datumFrom fuel path car) (← h.datumFrom fuel path cdr)
    | .vector length =>
      if path.contains r then throw (.wrongType "acyclic vector" "cyclic vector")
      let path := path.insert r
      let indices := List.range (min length h.capacity)
      let items ← indices.mapM fun i => h.datumFrom fuel path (h.field r (1 + i))
      return .vector items
    | .builtin .. | .closure _ => return .procedure (← h.procedureName r)
    | .environment _ | .binding => return .environment
    | .tagged marker value =>
      return .tagged (← h.datumFrom fuel path marker) (← h.datumFrom fuel path value)

def datum (h : Heap) (r : Ref) : Except Fault Datum := h.datumFrom h.nestingBound ∅ r

end Heap

end ArenaScheme
