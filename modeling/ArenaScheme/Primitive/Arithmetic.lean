import ArenaScheme.Primitive.Basic

/-! Arithmetic. Integers stay integers as long as the result fits 64 bits; everything else is done
with floats. -/

namespace ArenaScheme

open HeapM Eval

namespace Number

/-- The exact result if both are integers and it fits, else the result for floats. -/
def combine (exact : Int → Int → Int) (inexact : Float → Float → Float) (a b : Number) : Number :=
  match a, b with
  | integer x, integer y =>
    if fitsWord (exact x y) then integer (exact x y)
    else ofFloat (inexact a.toFloat b.toFloat)
  | _, _ => ofFloat (inexact a.toFloat b.toFloat)

/-- The order of two numbers; what is not a number comes after everything. -/
def order (a b : Number) : Ordering :=
  match a, b with
  | integer x, integer y => compare x y
  | _, _ =>
    let x := a.toFloat
    let y := b.toFloat
    if x < y then .lt else if x == y then .eq else .gt

/-- The quotient toward zero; the one that does not fit is the float `2 ^ 63`. -/
def quotient (a b : Int) : Number :=
  let q := a.tdiv b
  if fitsWord q then integer q else float (Binary64.ofInt q)

end Number

namespace Primitive

def number (r : Ref) : Eval Number := do
  match ← object r with
  | .integer value => return .integer value
  | .float bits => return .float bits
  | _ => fail (.wrongType "number" ((← get).heap.typeName r))

/-- The record of a number. -/
def store : Number → Eval Ref
  | .integer value => integer value
  | .float bits => float bits

def arithmetic (name : String) (exact : Int → Int → Int) (inexact : Float → Float → Float) :
    Primitive :=
  binary name fun a b => do
    let a ← number a
    let b ← number b
    store (Number.combine exact inexact a b)

def divide : Primitive :=
  binary "/" fun a b => do
    let a ← number a
    let b ← number b
    if b.toFloat == 0.0 then fail .divisionByZero
    store (.ofFloat (a.toFloat / b.toFloat))

/-- Two integers of which the second is not zero. -/
def divisionOperands (a b : Ref) : Eval (Int × Int) := do
  let a ← query (·.expectInteger a)
  let b ← query (·.expectInteger b)
  if b = 0 then fail .divisionByZero
  return (a, b)

def quotient : Primitive :=
  binary "quotient" fun a b => do
    let (a, b) ← divisionOperands a b
    store (Number.quotient a b)

def remainder : Primitive :=
  binary "remainder" fun a b => do
    let (a, b) ← divisionOperands a b
    store (.integer (a.tmod b))

def comparison (name : String) (holds : Ordering → Bool) : Primitive :=
  binary name fun a b => do
    let a ← number a
    let b ← number b
    return Heap.boolean (holds (Number.order a b))

def exactToInexact : Primitive :=
  unary "exact->inexact" fun a => do
    match ← number a with
    | .integer value => store (.float (Binary64.ofInt value))
    | .float bits => store (.float bits)

def inexactToExact : Primitive :=
  unary "inexact->exact" fun a => do
    match ← number a with
    | .integer _ => return a
    | .float bits =>
      match Binary64.truncate bits with
      | some value => store (.integer value)
      | none => fail (.wrongType "finite float" "float")

/-- The bases in which integers can be read and written. -/
def base (r : Ref) : Eval Nat := do
  let b ← query (·.expectInteger r)
  if b = 2 ∨ b = 8 ∨ b = 10 ∨ b = 16 then return b.toNat else fail (.unsupportedBase b)

def stringToNumber : Primitive :=
  binary "sys:string->number" fun text b => do
    let text := (← query (·.stringValue text)).toList
    let b ← base b
    let parsed := if b = 10 then Number.parse? text else (Number.integerIn? b text).map .integer
    match parsed with
    | some number => store number
    | none => return Heap.falsity

def numberToString : Primitive :=
  binary "sys:number->string" fun n b => do
    let n ← number n
    let b ← base b
    match n with
    | .integer value => string (Number.textIn b value)
    | .float bits =>
      if b = 10 then string (Binary64.toText bits) else fail (.wrongType "integer" "float")

end Primitive

end ArenaScheme
