import ArenaScheme.Evaluation.Interpreter
import ArenaScheme.Proofs.StoreView

/-! A definitional interpreter. It works on a store of things that never move, without a collector
and without a root stack, and it is recursive throughout: the branches of a conditional, the last form
of a sequence, the body of a closure and the call that `apply` makes are evaluated like every other
form. Fuel bounds how deep evaluations nest and how long lists of forms are; it has no other effect. -/

namespace ArenaScheme

/-- The state of an interpreter that has a store in place of a heap. -/
structure World where
  store : Store
  keywords : Keywords
  /-- The outermost frame of variables. -/
  globals : Nat
  output : String

abbrev Act := EStateM Stop World

namespace Act

variable {α : Type}

def fail (fault : Fault) : Act α := throw (.fault fault)

def outOfFuel : Act α := throw .outOfFuel

/-- Asks a question that may fail and changes nothing. -/
def ask (question : Store → Except Fault α) : Act α := fun W =>
  match question W.store with
  | .ok a => .ok a W
  | .error fault => .error (.fault fault) W

/-- Changes the store, or fails and leaves it as it is. -/
def step (change : Store → Except Fault (α × Store)) : Act α := fun W =>
  match change W.store with
  | .ok (a, A) => .ok a { W with store := A }
  | .error fault => .error (.fault fault) W

def update (change : Store → Except Fault Store) : Act Unit :=
  step fun A => return ((), ← change A)

def make (item : Item) : Act Nat := step fun A => return A.make item

/-- A 64-bit integer, known by its residue modulo `2 ^ 64`. -/
def integer (value : Int) : Act Nat :=
  make (.integer (signedOfWord (value % 18446744073709551616).toNat))

def string (text : String) : Act Nat := make (.string text.toList)

def intern (name : String) : Act Nat := step fun A => return A.intern name

def object (i : Nat) : Act Object := return (← get).store.object i

/-- The value of a form that is evaluated for its effect. -/
def undefined : Act Nat := return (← get).keywords.undefined

def emit (text : String) : Act Unit := modify fun W => { W with output := W.output ++ text }

end Act

/-- How the parts of an interpreter evaluate a form on the way to a value and in the place of one, how
they call a procedure, and how many rounds their loops may take. -/
structure Recursion where
  rounds : Nat
  evaluate : (form env : Nat) → Act Nat
  /-- Evaluates a form whose value is the value of the whole. -/
  tail : (form env : Nat) → Act Nat
  /-- Calls a procedure, the value of the call being the value of the whole. -/
  call : (procedure : Nat) → (args : List Nat) → Act Nat

/-! Primitive procedures. -/

/-- What a primitive procedure means. -/
structure Meaning where
  arity : Nat
  run : Recursion → List Nat → Act Nat

namespace Meaning

open Act

def nullary (f : Act Nat) : Meaning where
  arity := 0
  run _ args := match args with
    | [] => f
    | args => fail (.wrongArgumentCount 0 args.length)

def unary (f : Nat → Act Nat) : Meaning where
  arity := 1
  run _ args := match args with
    | [a] => f a
    | args => fail (.wrongArgumentCount 1 args.length)

def binary (f : Nat → Nat → Act Nat) : Meaning where
  arity := 2
  run _ args := match args with
    | [a, b] => f a b
    | args => fail (.wrongArgumentCount 2 args.length)

def ternary (f : Nat → Nat → Nat → Act Nat) : Meaning where
  arity := 3
  run _ args := match args with
    | [a, b, c] => f a b c
    | args => fail (.wrongArgumentCount 3 args.length)

def predicate (holds : Object → Bool) : Meaning :=
  unary fun value => return Store.boolean (holds (← object value))

def number : Number → Act Nat
  | .integer value => integer value
  | .float bits => make (.float bits)

def arithmetic (exact : Int → Int → Int) (inexact : Float → Float → Float) : Meaning :=
  binary fun a b => do
    let a ← ask (·.numberOf a)
    let b ← ask (·.numberOf b)
    number (Number.combine exact inexact a b)

def divide : Meaning :=
  binary fun a b => do
    let a ← ask (·.numberOf a)
    let b ← ask (·.numberOf b)
    if b.toFloat == 0.0 then fail .divisionByZero
    number (.ofFloat (a.toFloat / b.toFloat))

/-- Two integers of which the second is not zero. -/
def divisionOperands (a b : Nat) : Act (Int × Int) := do
  let a ← ask (·.integerOf a)
  let b ← ask (·.integerOf b)
  if b = 0 then fail .divisionByZero
  return (a, b)

def quotient : Meaning :=
  binary fun a b => do
    let (a, b) ← divisionOperands a b
    number (Number.quotient a b)

def remainder : Meaning :=
  binary fun a b => do
    let (a, b) ← divisionOperands a b
    number (.integer (a.tmod b))

def comparison (holds : Ordering → Bool) : Meaning :=
  binary fun a b => do
    let a ← ask (·.numberOf a)
    let b ← ask (·.numberOf b)
    return Store.boolean (holds (Number.order a b))

def exactToInexact : Meaning :=
  unary fun a => do
    match ← ask (·.numberOf a) with
    | .integer value => number (.float (Binary64.ofInt value))
    | .float bits => number (.float bits)

def inexactToExact : Meaning :=
  unary fun a => do
    match ← ask (·.numberOf a) with
    | .integer _ => return a
    | .float bits =>
      match Binary64.truncate bits with
      | some value => number (.integer value)
      | none => fail (.wrongType "finite float" "float")

def base (i : Nat) : Act Nat := do
  let b ← ask (·.integerOf i)
  if b = 2 ∨ b = 8 ∨ b = 10 ∨ b = 16 then return b.toNat else fail (.unsupportedBase b)

def stringToNumber : Meaning :=
  binary fun text b => do
    let text ← ask (·.textOf text)
    let b ← base b
    let parsed := if b = 10 then Number.parse? text else (Number.integerIn? b text).map .integer
    match parsed with
    | some n => number n
    | none => return Store.falsity

def numberToString : Meaning :=
  binary fun n b => do
    let n ← ask (·.numberOf n)
    let b ← base b
    match n with
    | .integer value => string (Number.textIn b value)
    | .float bits =>
      if b = 10 then string (Binary64.toText bits) else fail (.wrongType "integer" "float")

/-- A length for a new string or vector. -/
def newLength (i : Nat) : Act Nat := do
  let length ← ask (·.integerOf i)
  if 0 ≤ length ∧ length ≤ 4294967295 then return length.toNat
  else fail (.indexOutOfRange length)

def integerToChar (i : Nat) : Act Nat := do
  let code ← ask (·.integerOf i)
  if 0 ≤ code ∧ code.toNat.isValidChar then make (.char (Char.ofNat code.toNat))
  else fail (.wrongType "character code" "integer")

/-- Calls `procedure` with the elements of a list. -/
def applyTo (rec : Recursion) (procedure list : Nat) : Act Nat := do
  let length ← ask (·.listLength list)
  let args ← ask (·.firstElements length list)
  rec.call procedure args

def applyList : Meaning where
  arity := 2
  run rec args := match args with
    | [procedure, list] => applyTo rec procedure list
    | args => fail (.wrongArgumentCount 2 args.length)

/-- In the order of the primitives of a machine. -/
def all : List Meaning := [
  unary fun pair => ask (·.carOf pair),
  unary fun pair => ask (·.cdrOf pair),
  binary fun car cdr => make (.pair car cdr),
  binary fun pair value => do update (·.setCar pair value); undefined,
  binary fun pair value => do update (·.setCdr pair value); undefined,
  binary fun a b => return Store.boolean (a == b),
  applyList,
  arithmetic (· + ·) (· + ·),
  arithmetic (· - ·) (· - ·),
  arithmetic (· * ·) (· * ·),
  divide,
  quotient,
  remainder,
  comparison (· == .lt),
  comparison (· == .eq),
  exactToInexact,
  inexactToExact,
  predicate fun | .integer _ => true | _ => false,
  predicate fun | .float _ => true | _ => false,
  predicate fun | .symbol => true | _ => false,
  predicate fun | .pair .. => true | _ => false,
  predicate fun | .string _ => true | _ => false,
  predicate fun | .boolean _ => true | _ => false,
  predicate fun | .char _ => true | _ => false,
  predicate fun | .null => true | _ => false,
  predicate fun | .builtin .. | .closure _ => true | _ => false,
  predicate fun | .vector _ => true | _ => false,
  predicate fun | .eof => true | _ => false,
  predicate fun | .tagged .. => true | _ => false,
  unary fun value => do intern ((← get).store.typeName value),
  unary integerToChar,
  unary fun c => do integer (← ask (·.charOf c)).toNat,
  unary fun text => do integer (← ask (·.textOf text)).length,
  binary fun text index => do
    let index ← ask (·.integerOf index)
    make (.char (← ask (·.stringRef text index))),
  ternary fun text index c => do
    let index ← ask (·.integerOf index)
    let c ← ask (·.charOf c)
    update (·.stringSet text index c)
    undefined,
  unary fun length => do make (.string (List.replicate (← newLength length) ' ')),
  unary fun text => do intern (String.ofList (← ask (·.textOf text))),
  unary fun symbol => do string (← ask (·.nameOf symbol)),
  stringToNumber,
  numberToString,
  unary fun vector => do integer (← ask (·.elementsOf vector)).length,
  binary fun vector index => do
    let index ← ask (·.integerOf index)
    ask (·.vectorRef vector index),
  ternary fun vector index value => do
    let index ← ask (·.integerOf index)
    update (·.vectorSet vector index value)
    undefined,
  unary fun length => do make (.vector (List.replicate (← newLength length) (← undefined))),
  binary fun marker value => make (.tagged marker value),
  unary fun value => return (← ask (·.partsOf value)).2,
  unary fun value => return (← ask (·.partsOf value)).1,
  nullary (return (← get).globals),
  unary fun text => do emit (String.ofList (← ask (·.textOf text))); undefined,
  unary fun value => do emit ((← get).store.text .display value); undefined,
  unary fun code => do fail (.exit (← ask (·.integerOf code)))]

end Meaning

namespace Semantics

open Act

/-! Closures. -/

/-- The parameters in a parameter list, and whether it ended in a symbol. -/
def parameters : (rounds : Nat) → (formals : Nat) → Act (List Nat × Bool)
  | 0, _ => outOfFuel
  | rounds + 1, formals => do
    match ← object formals with
    | .null => return ([], false)
    | .symbol => return ([formals], true)
    | .pair car cdr =>
      if (← get).store.object car = .symbol then
        let (names, rest) ← parameters rounds cdr
        return (car :: names, rest)
      else fail (.malformed "parameters must be symbols")
    | _ => fail (.malformed "parameters must be symbols")

def makeClosure (rounds : Nat) (name formals body env : Nat) : Act Nat := do
  if body = Store.null then fail (.malformed "procedure body is empty")
  let (names, rest) ← parameters rounds formals
  let formals ← step fun A => return A.list Store.null names
  let body ← make (.pair (← get).keywords.begin body)
  make (.closure { name, formals, env, body, arity := names.length, rest })

/-! Special forms. -/

/-- The operands of a form, if there are exactly `n`. -/
def exactOperands (n : Nat) (form : Nat) : Act (Option (List Nat)) := do
  let operands ← ask (·.cdrOf form)
  return (← get).store.exactly n operands

/-- Evaluates the forms of a list one after the other. -/
def evalSequence (rec : Recursion) (env : Nat) : (rounds : Nat) → (body : Nat) → Act Nat
  | 0, _ => outOfFuel
  | rounds + 1, body => do
    match ← object body with
    | .pair form rest =>
      if rest = Store.null then rec.tail form env
      else
        let _ ← rec.evaluate form env
        evalSequence rec env rounds (← ask (·.cdrOf body))
    | .null => fail (.malformed "begin needs at least one expression")
    | _ => fail (.malformed "begin with a dotted body")

/-- The test may change the form, which is then read again. -/
def evalBranch (rec : Recursion) (form env : Nat) : Act Nat := do
  let malformed := Fault.malformed "if takes a test and two branches"
  let some [test, _, _] ← exactOperands 3 form | fail malformed
  let test ← rec.evaluate test env
  let some [_, consequent, alternative] ← exactOperands 3 form | fail malformed
  rec.tail (if test = Store.falsity then alternative else consequent) env

def evalAssign (rec : Recursion) (form env : Nat) : Act Nat := do
  let some [target, expression] ← exactOperands 2 form
    | fail (.malformed "set! takes a symbol and one expression")
  let _ ← ask (·.nameOf target)
  let value ← rec.evaluate expression env
  let operands ← ask (·.cdrOf form)
  let target ← ask (·.carOf operands)
  update (·.assign env target value)
  undefined

def evalLambda (rec : Recursion) (form env : Nat) : Act Nat := do
  match ← object (← ask (·.cdrOf form)) with
  | .pair formals body => makeClosure rec.rounds (← get).keywords.lambda formals body env
  | _ => fail (.malformed "lambda needs a parameter list")

/-- Binds a variable, or with a signature as target a procedure. -/
def evalDefine (rec : Recursion) (form env : Nat) : Act Nat := do
  match ← object (← ask (·.cdrOf form)) with
  | .pair target body =>
    match ← object target with
    | .symbol =>
      let some [expression] := (← get).store.exactly 1 body
        | fail (.malformed "define takes exactly one expression")
      let value ← rec.evaluate expression env
      let operands ← ask (·.cdrOf form)
      let target ← ask (·.carOf operands)
      update (·.define env target value)
    | .pair name formals =>
      let _ ← ask (·.nameOf name)
      let closure ← makeClosure rec.rounds name formals body env
      let operands ← ask (·.cdrOf form)
      let signature ← ask (·.carOf operands)
      let name ← ask (·.carOf signature)
      update (·.define env name closure)
    | _ => fail (.malformed "define target must be a symbol or a signature")
    undefined
  | _ => fail (.malformed "define needs a target")

def evalSpecial (rec : Recursion) (special : SpecialForm) (form env : Nat) : Act Nat := do
  match special with
  | .quote =>
    let some [datum] ← exactOperands 1 form
      | fail (.malformed "quote takes exactly one operand")
    return datum
  | .branch => evalBranch rec form env
  | .begin => evalSequence rec env rec.rounds (← ask (·.cdrOf form))
  | .define => evalDefine rec form env
  | .assign => evalAssign rec form env
  | .lambda => evalLambda rec form env
  | .defineTransformer => fail (.malformed "defmacro is only allowed at top level")

/-! Calls. -/

def runBuiltin (rec : Recursion) (index : Nat) (args : List Nat) : Act Nat :=
  match Meaning.all[index]? with
  | some primitive =>
    if args.length ≠ primitive.arity then fail (.wrongArgumentCount primitive.arity args.length)
    else primitive.run rec args
  | none => fail (.notCallable "")

/-- Calls a procedure. The body of a closure is evaluated in a new frame. -/
def invoke (rec : Recursion) (procedure : Nat) (args : List Nat) : Act Nat := do
  match ← object procedure with
  | .builtin _ index => runBuiltin rec index args
  | .closure c =>
    let frame ← step (·.extend c.env c.formals c.arity c.rest args)
    rec.tail c.body frame
  | _ => fail (.notCallable ((← get).store.text .display procedure))

/-- The values of the operands in a list, from left to right. -/
def evalOperands (rec : Recursion) (env : Nat) : (rounds : Nat) → (list : Nat) → Act (List Nat)
  | 0, _ => outOfFuel
  | rounds + 1, list => do
    match ← object list with
    | .null => return []
    | .pair form _ =>
      let value ← rec.evaluate form env
      let values ← evalOperands rec env rounds (← ask (·.cdrOf list))
      return value :: values
    | _ => fail (.malformed "procedure call with a dotted argument list")

def evalApplication (rec : Recursion) (form env : Nat) : Act Nat := do
  let head ← ask (·.carOf form)
  let procedure ← rec.evaluate head env
  let args ← evalOperands rec env rec.rounds (← ask (·.cdrOf form))
  invoke rec procedure args

/-- Evaluates a form in a frame. -/
def eval (rec : Recursion) (form env : Nat) : Act Nat := do
  match ← object form with
  | .null => fail (.malformed "cannot evaluate the empty list")
  | .vector _ => fail (.malformed "vector literals must be quoted")
  | .symbol => ask (·.lookup env form)
  | .pair head _ =>
    match (← get).keywords.specialForm? head with
    | some special => evalSpecial rec special form env
    | none => evalApplication rec form env
  | _ => return form

/-- The interpreter with a given amount of fuel. A form in tail position is evaluated like any
other. -/
def recursion : (fuel : Nat) → Recursion
  | 0 =>
    { rounds := 0, evaluate := fun _ _ => outOfFuel, tail := fun _ _ => outOfFuel,
      call := fun _ _ => outOfFuel }
  | fuel + 1 =>
    { rounds := fuel
      evaluate := eval (recursion fuel)
      tail := eval (recursion fuel)
      call := invoke (recursion fuel) }

end Semantics

end ArenaScheme
