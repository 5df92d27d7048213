import ArenaScheme.Primitive.Arithmetic

/-! The primitive procedures, in the order in which a machine defines them. -/

namespace ArenaScheme

open HeapM Eval

/-- Pushes the first `n` elements of a list as roots. -/
def pushElements : (n : Nat) → (list : Ref) → Eval Unit
  | 0, _ => pure ()
  | n + 1, list => do
    let _ ← pushRoot (← query (·.car list))
    pushElements n (← query (·.cdr list))

/-- Calls `procedure` with the elements of a list. -/
def applyStep (calls : Calls) (procedure arguments : Ref) : Eval Step := do
  let length ← query (·.listLength arguments)
  let operator ← pushRoot procedure
  let args ← rootCount
  pushElements length arguments
  calls.invoke operator args

/-- Calls `procedure` with the elements of a list and finishes the call. -/
def apply (calls : Calls) (procedure arguments : Ref) : Eval Ref :=
  keepingRoots do
    match ← applyStep calls procedure arguments with
    | .done value => return value
    | .tail form env => calls.evaluate form env

namespace Primitive

/-- A call that takes the place of the call to `apply`. -/
def applyList : Primitive where
  name := "apply"
  arity := 2
  run calls args := match args with
    | [procedure, arguments] => applyStep calls procedure arguments
    | args => fail (.wrongArgumentCount 2 args.length)

/-- A length for a new string or vector. -/
def newLength (r : Ref) : Eval Nat := do
  let length ← query (·.expectInteger r)
  if 0 ≤ length ∧ length ≤ 4294967295 then return length.toNat
  else fail (.indexOutOfRange length)

/-- The marker and the value of a tagged value. -/
def tagParts (r : Ref) : Eval (Ref × Ref) := do
  match ← object r with
  | .tagged marker value => return (marker, value)
  | _ => fail (.wrongType "tag" ((← get).heap.typeName r))

def emit (text : String) : Eval Unit := modify fun m => { m with output := m.output ++ text }

def integerToChar (r : Ref) : Eval Ref := do
  let code ← query (·.expectInteger r)
  if 0 ≤ code ∧ code.toNat.isValidChar then character (Char.ofNat code.toNat)
  else fail (.wrongType "character code" "integer")

def all : List Primitive := [
  unary "car" fun pair => query (·.car pair),
  unary "cdr" fun pair => query (·.cdr pair),
  binary "cons" fun car cdr => cons car cdr,
  binary "set-car!" fun pair value => do setCar pair value; undefined,
  binary "set-cdr!" fun pair value => do setCdr pair value; undefined,
  binary "eq?" fun a b => return Heap.boolean (a == b),
  applyList,
  arithmetic "+" (· + ·) (· + ·),
  arithmetic "-" (· - ·) (· - ·),
  arithmetic "*" (· * ·) (· * ·),
  divide,
  quotient,
  remainder,
  comparison "<" (· == .lt),
  comparison "=" (· == .eq),
  exactToInexact,
  inexactToExact,
  predicate "integer?" fun | .integer _ => true | _ => false,
  predicate "float?" fun | .float _ => true | _ => false,
  predicate "symbol?" fun | .symbol => true | _ => false,
  predicate "pair?" fun | .pair .. => true | _ => false,
  predicate "string?" fun | .string _ => true | _ => false,
  predicate "boolean?" fun | .boolean _ => true | _ => false,
  predicate "char?" fun | .char _ => true | _ => false,
  predicate "null?" fun | .null => true | _ => false,
  predicate "procedure?" fun | .builtin .. | .closure _ => true | _ => false,
  predicate "vector?" fun | .vector _ => true | _ => false,
  predicate "eof-object?" fun | .eof => true | _ => false,
  predicate "tag?" fun | .tagged .. => true | _ => false,
  unary "type" fun value => do intern ((← get).heap.typeName value),
  unary "integer->char" integerToChar,
  unary "char->integer" fun c => do integer (← query (·.expectChar c)).toNat,
  unary "string-length" fun text => do integer (← query (·.stringLength text)),
  binary "string-ref" fun text index => do
    let index ← query (·.expectInteger index)
    character (← query (·.stringRef text index)),
  ternary "string-set!" fun text index c => do
    let index ← query (·.expectInteger index)
    let c ← query (·.expectChar c)
    stringSet text index c
    undefined,
  unary "make-string" fun length => do makeString (← newLength length) ' ',
  unary "string->symbol" fun text => do intern (← query (·.stringValue text)),
  unary "symbol->string" fun symbol => do string (← query (·.symbolName symbol)),
  stringToNumber,
  numberToString,
  unary "vector-length" fun vector => do integer (← query (·.vectorLength vector)),
  binary "vector-ref" fun vector index => do
    let index ← query (·.expectInteger index)
    query (·.vectorRef vector index),
  ternary "vector-set!" fun vector index value => do
    let index ← query (·.expectInteger index)
    vectorSet vector index value
    undefined,
  unary "make-vector" fun length => do makeVector (← newLength length) (← undefined),
  binary "tag" fun marker value => tagged marker value,
  unary "untag" fun value => return (← tagParts value).2,
  unary "tag-marker" fun value => return (← tagParts value).1,
  nullary "global-environment" (return (← get).globals),
  unary "display-string" fun text => do emit (← query (·.stringValue text)); undefined,
  unary "display" fun value => do emit ((← get).heap.display value); undefined,
  unary "exit" fun code => do fail (.exit (← query (·.expectInteger code)))]

/-- The same procedures by index. -/
def table : Array Primitive := all.toArray

end Primitive

end ArenaScheme
