import ArenaScheme.Evaluation.Closure
import ArenaScheme.Primitive.Table
import Std.Data.HashSet

/-! Expansion of top-level forms. Calls of transformers are replaced, one at a time, until a scan
finds none. The scan goes through the sub-forms of a form from left to right before the form
itself, does not enter quoted data, and starts over after each replacement. -/

namespace ArenaScheme

open HeapM Eval

/-- A call of a transformer, and the pair whose first field holds it unless it is the whole form. -/
structure FoundCall where
  parent : Option Ref
  call : Ref
  deriving DecidableEq, Repr

namespace Machine

/-- Whether a form with this head is a call of a transformer. -/
def isTransformer (m : Machine) (head : Ref) : Bool :=
  m.heap.isSymbol head && (m.heap.findBinding m.transformers head).isSome

/-- The pairs that a scan has come upon so far, and the call it found. -/
abbrev Scan := Std.HashSet Ref × Option FoundCall

/-- Scans a form, given a scan of the sub-forms of a pair and of the pairs after it. -/
def scanForm (m : Machine) (spine : Ref → Std.HashSet Ref → Scan) (parent : Option Ref)
    (form : Ref) (visited : Std.HashSet Ref) : Scan :=
  match m.heap.object form with
  | .pair head _ =>
    if head = m.keywords.quote || visited.contains form then (visited, none)
    else
      match spine form (visited.insert form) with
      | (visited, some found) => (visited, some found)
      | (visited, none) =>
        (visited, if m.isTransformer head then some { parent, call := form } else none)
  | _ => (visited, none)

/-- Scans the first field of a pair and then the pairs after it. -/
def scanSpine (m : Machine) : (fuel : Nat) → Ref → Std.HashSet Ref → Scan
  | 0, _, visited => (visited, none)
  | fuel + 1, pair, visited =>
    match m.heap.object pair with
    | .pair car cdr =>
      match m.scanForm (m.scanSpine fuel) (some pair) car visited with
      | (visited, some found) => (visited, some found)
      | (visited, none) =>
        if !m.heap.isPair cdr || visited.contains cdr then (visited, none)
        else m.scanSpine fuel cdr (visited.insert cdr)
    | _ => (visited, none)

/-- The first call of a transformer in a form. No scan comes upon more pairs than there are
positions. -/
def findCall (m : Machine) (form : Ref) : Option FoundCall :=
  (m.scanForm (m.scanSpine (m.heap.capacity + 1)) none form ∅).2

end Machine

/-- Applies the transformer that a call names to the operands of the call as they stand. -/
def expandCall (calls : Calls) (call : Ref) : Eval Ref := do
  let name ← query (·.car call)
  let transformers := (← get).transformers
  let transformer ← query (·.lookup transformers name)
  let operands ← query (·.cdr call)
  trace fun h => .expansion (h.display name)
  apply calls transformer operands

/-- Replaces calls in the form that stands in a slot until there are none. -/
def expandIn (calls : Calls) (form : Slot) : (rounds : Nat) → Eval Unit
  | 0 => outOfFuel
  | rounds + 1 => do
    let m ← get
    match m.findCall (m.heap.root form) with
    | none => return
    | some { parent, call } =>
      let count ← rootCount
      match parent with
      | some pair =>
        let slot ← pushRoot pair
        let expansion ← expandCall calls call
        setCar (← root slot) expansion
      | none => setRoot form (← expandCall calls call)
      releaseRoots count
      expandIn calls form rounds

/-- Expands each form of the list in a slot, in place. -/
def expandBody (calls : Calls) (cursor : Slot) : (rounds : Nat) → Eval Unit
  | 0 => outOfFuel
  | rounds + 1 => do
    match ← object (← root cursor) with
    | .pair form _ =>
      let slot ← pushRoot form
      expandIn calls slot calls.rounds
      setCar (← root cursor) (← root slot)
      releaseRoots slot
      let list ← root cursor
      setRoot cursor (← query (·.cdr list))
      expandBody calls cursor rounds
    | _ => return

/-- The closure over the global frame that the definition in a slot describes. -/
def transformerClosure (calls : Calls) (form : Slot) : Eval Ref := do
  let whole ← root form
  let operands ← query (·.cdr whole)
  let name ← query (·.car operands)
  let rest ← query (·.cdr operands)
  let params ← query (·.car rest)
  let body ← query (·.cdr rest)
  makeClosure calls.rounds name params body (← get).globals

/-- Binds the name of the definition in a slot to a transformer. -/
def bindTransformer (form : Slot) (transformer : Ref) : Eval Unit := do
  let slot ← pushRoot transformer
  let whole ← root form
  let operands ← query (·.cdr whole)
  let name ← query (·.car operands)
  putBinding (← get).transformers name (← root slot)

/-- Registers the transformer that the form in a slot defines, once its body has been expanded. -/
def registerTransformer (calls : Calls) (form : Slot) (body : Ref) : Eval Unit := do
  expandBody calls (← pushRoot body) calls.rounds
  bindTransformer form (← transformerClosure calls form)

/-- Checks the definition of a transformer in a slot, and registers the transformer. -/
def defineTransformer (calls : Calls) (form : Slot) : Eval Unit := do
  let whole ← root form
  let operands ← query (·.cdr whole)
  let .pair name rest ← object operands | fail (.malformed "defmacro needs a name")
  let spelled ← query (·.symbolName name)
  if isReserved spelled then fail (.reservedName spelled)
  let .pair _ body ← object rest | fail (.malformed "defmacro needs a parameter list")
  if !(← get).heap.isPair body then fail (.malformed "defmacro needs a body")
  registerTransformer calls form body

/-- Expands a top-level form. A form that defines a transformer registers it and becomes the true
value. -/
def expand (calls : Calls) (form : Ref) : Eval Ref :=
  keepingRoots do
    let definition := (← get).keywords.defineTransformer
    let defines := match ← object form with
      | .pair head _ => head == definition
      | _ => false
    let slot ← pushRoot form
    if defines then
      defineTransformer calls slot
      return Heap.truth
    else
      expandIn calls slot calls.rounds
      root slot

end ArenaScheme
