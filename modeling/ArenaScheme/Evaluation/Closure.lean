import ArenaScheme.Machine

/-! Closures from a parameter list and a body. The parameters are a symbol, the empty list, or a
list of symbols that may end in a symbol; a final symbol takes the surplus arguments. -/

namespace ArenaScheme

open HeapM Eval

/-- Pushes the parameters as roots, in order; gives whether the list ended in a symbol. -/
def pushParameters : (rounds : Nat) → (formals : Ref) → Eval Bool
  | 0, _ => outOfFuel
  | rounds + 1, formals => do
    match ← object formals with
    | .null => return false
    | .symbol =>
      let _ ← pushRoot formals
      return true
    | .pair car cdr =>
      if (← get).heap.isSymbol car then
        let _ ← pushRoot car
        pushParameters rounds cdr
      else fail (.malformed "parameters must be symbols")
    | _ => fail (.malformed "parameters must be symbols")

/-- A closure whose body is the given list of forms. -/
def makeClosure (rounds : Nat) (name formals body env : Ref) : Eval Ref := do
  if body = Heap.null then fail (.malformed "procedure body is empty")
  let count ← rootCount
  let nameSlot ← pushRoot name
  let bodySlot ← pushRoot body
  let envSlot ← pushRoot env
  let names ← rootCount
  let rest ← pushParameters rounds formals
  let arity := (← rootCount) - names
  let formalsSlot ← pushRoot (← listFromRoots names Heap.null)
  let begin := (← get).keywords.begin
  let body ← cons begin (← root bodySlot)
  let result ← closure (← root nameSlot) (← root formalsSlot) (← root envSlot)
    body arity rest
  releaseRoots count
  return result

end ArenaScheme
