import ArenaScheme.Evaluation.Closure

/-! How each special form is evaluated. The form and the frame stand in two slots and are read
again after everything that may move them. -/

namespace ArenaScheme

open HeapM Eval

/-- The operands of a form in a slot. -/
def operandsOf (form : Slot) : Eval Ref := do
  let form ← root form
  query (·.cdr form)

/-- The operands of a form in a slot, if there are exactly `n`. -/
def exactOperands (n : Nat) (form : Slot) : Eval (Option (List Ref)) := do
  let operands ← operandsOf form
  return (← get).heap.exactly n operands

/-- Evaluates the forms of a list one after the other; the last one is left to do. -/
def evalSequence (calls : Calls) (body env : Slot) : (rounds : Nat) → Eval Step
  | 0 => outOfFuel
  | rounds + 1 => do
    match ← object (← root body) with
    | .pair form rest =>
      let frame ← root env
      if rest = Heap.null then return .tail form frame
      let _ ← calls.evaluate form frame
      let list ← root body
      setRoot body (← query (·.cdr list))
      evalSequence calls body env rounds
    | .null => fail (.malformed "begin needs at least one expression")
    | _ => fail (.malformed "begin with a dotted body")

def evalBranch (calls : Calls) (form env : Slot) : Eval Step := do
  let malformed := Fault.malformed "if takes a test and two branches"
  let some [test, _, _] ← exactOperands 3 form | fail malformed
  let test ← calls.evaluate test (← root env)
  let some [_, consequent, alternative] ← exactOperands 3 form | fail malformed
  return .tail (if Heap.isTrue test then consequent else alternative) (← root env)

def evalAssign (calls : Calls) (form env : Slot) : Eval Step := do
  let some [target, expression] ← exactOperands 2 form
    | fail (.malformed "set! takes a symbol and one expression")
  query (·.expectSymbol target)
  let value ← calls.evaluate expression (← root env)
  let operands ← operandsOf form
  let target ← query (·.car operands)
  assign (← root env) target value
  return .done (← undefined)

def evalLambda (calls : Calls) (form env : Slot) : Eval Step := do
  match ← object (← operandsOf form) with
  | .pair formals body =>
    let name := (← get).keywords.lambda
    return .done (← makeClosure calls.rounds name formals body (← root env))
  | _ => fail (.malformed "lambda needs a parameter list")

/-- Binds a variable, or with a signature as target a procedure. -/
def evalDefine (calls : Calls) (form env : Slot) : Eval Step := do
  match ← object (← operandsOf form) with
  | .pair target body =>
    match ← object target with
    | .symbol =>
      let some [expression] := (← get).heap.exactly 1 body
        | fail (.malformed "define takes exactly one expression")
      let value ← calls.evaluate expression (← root env)
      let operands ← operandsOf form
      let target ← query (·.car operands)
      define (← root env) target value
    | .pair name formals =>
      query (·.expectSymbol name)
      let slot ← pushRoot (← makeClosure calls.rounds name formals body (← root env))
      let operands ← operandsOf form
      let signature ← query (·.car operands)
      let name ← query (·.car signature)
      define (← root env) name (← root slot)
    | _ => fail (.malformed "define target must be a symbol or a signature")
    return .done (← undefined)
  | _ => fail (.malformed "define needs a target")

def evalSpecial (calls : Calls) (special : SpecialForm) (form env : Slot) : Eval Step := do
  match special with
  | .quote =>
    let some [datum] ← exactOperands 1 form
      | fail (.malformed "quote takes exactly one operand")
    return .done datum
  | .branch => evalBranch calls form env
  | .begin =>
    let body ← pushRoot (← operandsOf form)
    evalSequence calls body env calls.rounds
  | .define => evalDefine calls form env
  | .assign => evalAssign calls form env
  | .lambda => evalLambda calls form env
  | .defineTransformer => fail (.malformed "defmacro is only allowed at top level")

end ArenaScheme
