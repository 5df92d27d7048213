import ArenaScheme.Heap.Object
import ArenaScheme.SpecialForm

/-! Frames of variables. A frame leads to its outer frame and to a search tree of bindings, ordered
by the digest of the symbol's name and then by the symbol's position. A binding holds its symbol,
its value and its two subtrees. Collections keep the order of all records, and so of the trees. -/

namespace ArenaScheme

namespace Heap

/-- Whether bindings of `a` stand to the left of bindings of `b`. -/
def keyBefore (h : Heap) (a b : Ref) : Bool :=
  h.nameDigest a < h.nameDigest b || (h.nameDigest a == h.nameDigest b && a < b)

def findBindingFrom (h : Heap) (symbol : Ref) : (fuel : Nat) → (node : Ref) → Option Ref
  | 0, _ => none
  | fuel + 1, node =>
    if node = absent then none
    else
      let bound := h.looseField node 0
      if bound = symbol then some node
      else if h.keyBefore symbol bound then h.findBindingFrom symbol fuel (h.looseField node 2)
      else h.findBindingFrom symbol fuel (h.looseField node 3)

/-- The binding of `symbol` in `frame` itself. -/
def findBinding (h : Heap) (frame symbol : Ref) : Option Ref :=
  h.findBindingFrom symbol h.capacity (h.looseField frame 1)

/-- The nearest binding of `symbol` in `frame` or one of its outer frames. -/
def findVisibleFrom (h : Heap) (symbol : Ref) : (fuel : Nat) → (frame : Ref) → Option Ref
  | 0, _ => none
  | fuel + 1, frame =>
    if frame = absent then none
    else match h.findBinding frame symbol with
      | some node => some node
      | none => h.findVisibleFrom symbol fuel (h.looseField frame 0)

def expectFrame (h : Heap) (frame : Ref) : Except Fault Unit :=
  h.expectKind .environment "environment" frame

def findVisible (h : Heap) (frame symbol : Ref) : Except Fault Ref := do
  h.expectFrame frame
  h.expectSymbol symbol
  match h.findVisibleFrom symbol h.capacity frame with
  | some node => return node
  | none => throw (.undefinedVariable (← h.symbolName symbol))

/-- The value of `symbol` in `frame` or the nearest outer frame that binds it. -/
def lookup (h : Heap) (frame symbol : Ref) : Except Fault Ref := do
  return h.looseField (← h.findVisible frame symbol) 1

/-- The field where a new binding of `symbol` belongs, given as a record and a field of it. -/
def bindingLink (h : Heap) (symbol : Ref) : (fuel : Nat) → (link : Ref × Nat) → Ref × Nat
  | 0, link => link
  | fuel + 1, link =>
    let child := h.looseField link.1 link.2
    if child = absent then link
    else h.bindingLink symbol fuel
      (child, if h.keyBefore symbol (h.looseField child 0) then 2 else 3)

end Heap

namespace HeapM

open Heap

/-- Binds `symbol` in `frame`, whatever its name. -/
def putBinding (frame symbol value : Ref) : HeapM Unit := do
  match (← get).findBinding frame symbol with
  | some node => setLooseField node 1 value
  | none =>
    let (r, kept) ← allocate .binding (fieldsSize 4) #v[frame, symbol, value]
    modifyMemory (·.writeWords (fieldAddress r 0) [kept[1], kept[2], absent, absent])
    let h ← get
    let (node, side) := h.bindingLink kept[1] h.capacity (kept[0], 1)
    setLooseField node side r

/-- Binds `symbol` in `frame`; a reserved name is refused. -/
def define (frame symbol value : Ref) : HeapM Unit := do
  let name ← query (·.symbolName symbol)
  if isReserved name then throw (.reservedName name)
  query (·.expectFrame frame)
  putBinding frame symbol value

/-- Changes the nearest binding of `symbol`. -/
def assign (frame symbol value : Ref) : HeapM Unit := do
  let node ← query (·.findVisible frame symbol)
  setLooseField node 1 value

/-- Binds the next `count` parameters, the first of them to argument number `i`. The arguments stand
in slots from `args` on; a parameter after the first `fixed` ones takes the list in `surplus`. -/
def bindFormals (args fixed cursor surplus frame : Nat) : (count i : Nat) → HeapM Unit
  | 0, _ => pure ()
  | count + 1, i => do
    let list ← root cursor
    let name ← query (·.car list)
    let value ← root (if i < fixed then args + i else surplus)
    define (← root frame) name value
    let list ← root cursor
    setRoot cursor (← query (·.cdr list))
    bindFormals args fixed cursor surplus frame count (i + 1)

/-- How many parameters take one argument each, if the number of arguments is right. -/
def fixedParameters (arity : Nat) (rest : Bool) (received : Nat) : Except Fault Nat :=
  if rest then
    if arity = 0 then .error (.malformed "rest parameter without a name")
    else if received + 1 < arity then .error (.tooFewArguments (arity - 1) received)
    else .ok (arity - 1)
  else if received = arity then .ok arity
  else .error (.wrongArgumentCount arity received)

/-- A new frame inside `parent` in which the symbols of the list `formals` are bound to the values
in the slots from `args` on. With `rest` the last symbol is bound to a list of what is left. -/
def extend (parent formals : Ref) (arity : Nat) (rest : Bool) (args : Slot) : HeapM Ref := do
  let argsEnd ← rootCount
  let received := argsEnd - args
  let fixed ← query fun _ => fixedParameters arity rest received
  let parentSlot ← pushRoot parent
  let cursor ← pushRoot formals
  let surplusList ←
    if rest then listOnto (args + fixed) (received - fixed) null else pure null
  let surplus ← pushRoot surplusList
  let frame ← pushRoot (← environment (some (← root parentSlot)))
  bindFormals args fixed cursor surplus frame arity 0
  let result ← root frame
  releaseRoots argsEnd
  return result

end HeapM

end ArenaScheme
