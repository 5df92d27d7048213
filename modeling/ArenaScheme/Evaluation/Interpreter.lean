import ArenaScheme.Evaluation.SpecialForms
import ArenaScheme.Expansion

/-! The evaluator. A loop holds the form and its frame in two slots; calls in tail position replace
them, so that a loop of tail calls needs no more room than one call. Fuel bounds how deep
evaluations nest and how many rounds each loop takes; it has no other effect. -/

namespace ArenaScheme

open HeapM Eval

/-- Expands a top-level form and evaluates it in the global frame. -/
def evalForm (calls : Calls) (form : Ref) : Eval Ref := do
  let form ← calls.expand form
  trace fun h => .evaluation (h.write form)
  calls.evaluate form (← get).globals

/-- What a procedure of the host does; an argument that is missing is the empty list. -/
def Extension.run (calls : Calls) (args : List Ref) : Extension → Eval Step
  | identity => return .done first
  | count => return .done (← integer args.length)
  | fail => Eval.fail (.malformed "host failure")
  | collect => do
    HeapM.collect
    return .done Heap.null
  | tailEvaluate => return .tail first (← get).globals
  | evaluate => return .done (← calls.evaluate first (← get).globals)
  | evaluateForm => return .done (← evalForm calls first)
  | apply => return .done (← ArenaScheme.apply calls first second)
  | expand => return .done (← calls.expand first)
where
  first := args.headD Heap.null
  second := args[1]?.getD Heap.null

/-- The procedures of a host that does what the machine has noted for each. -/
def Extension.procedures : Procedures := fun calls index args => do
  match (← get).hostProcedures[index]? with
  | some procedure => procedure.action.run calls args
  | none => Eval.fail (.notCallable "")

/-- The primitives and, after them, the procedures that a host has added. -/
def runBuiltin (host : Procedures) : Procedures := fun calls index args => do
  match Primitive.table[index]? with
  | some primitive =>
    if args.length ≠ primitive.arity then
      fail (.wrongArgumentCount primitive.arity args.length)
    primitive.run calls args
  | none =>
    match (← get).hostProcedures[index - Primitive.table.size]? with
    | some procedure =>
      if args.length ≠ procedure.arity then
        fail (.wrongArgumentCount procedure.arity args.length)
      host calls (index - Primitive.table.size) args
    | none => fail (.notCallable "")

/-- Calls the procedure in a slot with the values in all slots from `args` on. The body of a closure
is left to do. -/
def invoke (calls : Calls) (operator args : Slot) : Eval Step := do
  let procedure ← root operator
  match ← object procedure with
  | .builtin _ index => calls.builtin index (← rootsBetween args (← rootCount))
  | .closure c =>
    let env ← extend c.env c.formals c.arity c.rest args
    let procedure ← root operator
    let c ← query (·.closureView procedure)
    return .tail c.body env
  | _ => fail (.notCallable ((← get).heap.display procedure))

/-- Evaluates the operands in the list in `cursor` and pushes their values. -/
def evalOperands (calls : Calls) (env cursor : Slot) : (rounds : Nat) → Eval Unit
  | 0 => outOfFuel
  | rounds + 1 => do
    match ← object (← root cursor) with
    | .null => return
    | .pair form _ =>
      let value ← calls.evaluate form (← root env)
      let _ ← pushRoot value
      let list ← root cursor
      setRoot cursor (← query (·.cdr list))
      evalOperands calls env cursor rounds
    | _ => fail (.malformed "procedure call with a dotted argument list")

def evalApplication (calls : Calls) (form env : Slot) : Eval Step := do
  let whole ← root form
  let head ← query (·.car whole)
  let operator ← pushRoot (← calls.evaluate head (← root env))
  let cursor ← pushRoot (← operandsOf form)
  let args ← rootCount
  evalOperands calls env cursor calls.rounds
  invoke calls operator args

/-- One turn of the evaluator on the form and the frame in two slots. -/
def evalTurn (calls : Calls) (form env : Slot) : Eval Step := do
  let whole ← root form
  match ← object whole with
  | .null => fail (.malformed "cannot evaluate the empty list")
  | .vector _ => fail (.malformed "vector literals must be quoted")
  | .symbol =>
    let frame ← root env
    return .done (← query (·.lookup frame whole))
  | .pair head _ =>
    match (← get).keywords.specialForm? head with
    | some special => evalSpecial calls special form env
    | none => evalApplication calls form env
  | _ => return .done whole

/-- Takes turns until a value is there. Before each turn only the two slots are left. -/
def evalLoop (calls : Calls) (form env : Slot) : (rounds : Nat) → Eval Ref
  | 0 => outOfFuel
  | rounds + 1 => do
    releaseRoots (env + 1)
    match ← evalTurn calls form env with
    | .done value => return value
    | .tail nextForm nextEnv =>
      setRoot form nextForm
      setRoot env nextEnv
      evalLoop calls form env rounds

def evaluate (calls : Calls) (form env : Ref) : Eval Ref :=
  keepingRoots do
    let formSlot ← pushRoot form
    let envSlot ← pushRoot env
    evalLoop calls formSlot envSlot calls.rounds

/-- The interpreter with a given table of procedures and a given amount of fuel. -/
def interpreterWith (table : Procedures) : (fuel : Nat) → Calls
  | 0 => equip
    { rounds := 0, evaluate := fun _ _ => outOfFuel, invoke := fun _ _ => outOfFuel,
      expand := fun _ => outOfFuel, builtin := fun _ _ => outOfFuel }
  | fuel + 1 => equip
    { rounds := fuel
      evaluate := fun form env => ArenaScheme.evaluate (interpreterWith table fuel) form env
      invoke := fun operator args => ArenaScheme.invoke (interpreterWith table fuel) operator args
      expand := fun form => ArenaScheme.expand (interpreterWith table fuel) form
      builtin := fun _ _ => outOfFuel }
where
  /-- The table is given an interpreter without one: its procedures call others by `invoke`. -/
  equip (calls : Calls) : Calls := { calls with builtin := table calls }

/-- The interpreter of a session. -/
abbrev interpreter (fuel : Nat) : Calls := interpreterWith (runBuiltin Extension.procedures) fuel

end ArenaScheme
