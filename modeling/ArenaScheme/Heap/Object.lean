import ArenaScheme.Heap.Symbol

/-! A typed look at records, and the questions and updates that check the kind of a record
before they touch it. -/

namespace ArenaScheme

structure Closure where
  name : Ref
  /-- A list of parameter symbols; with `rest` the last one takes the surplus arguments. -/
  formals : Ref
  env : Ref
  body : Ref
  arity : Nat
  rest : Bool
  deriving DecidableEq, Repr

/-- What a record holds. The elements of strings and vectors stay in the heap. -/
inductive Object where
  | integer (value : Int)
  | float (bits : UInt64)
  | symbol
  | pair (car cdr : Ref)
  | string (length : Nat)
  | boolean (value : Bool)
  | char (value : Char)
  | null
  | eof
  | vector (length : Nat)
  | builtin (name : Ref) (index : Nat)
  | closure (closure : Closure)
  | environment (outer : Option Ref)
  | binding
  | tagged (marker value : Ref)
  deriving DecidableEq, Repr

/-- The character with the given code, or the replacement character if there is none. -/
def charOfCode (code : Nat) : Char :=
  if code.isValidChar then Char.ofNat code else Text.replacement

/-- The 64-bit integer with the given residue modulo `2 ^ 64`. -/
def signedOfWord (n : Nat) : Int :=
  if n < 9223372036854775808 then n else (n : Int) - 18446744073709551616

/-- An index into a sequence of the given length. -/
def checkedIndex (length : Nat) (index : Int) : Except Fault Nat :=
  if 0 ≤ index ∧ index < length then .ok index.toNat else .error (.indexOutOfRange index)

namespace Heap

/-- The first two fields as one number. -/
def payload (h : Heap) (r : Ref) : Nat := h.field r 0 + 4294967296 * h.field r 1

def object (h : Heap) (r : Ref) : Object :=
  match h.kind r with
  | .integer => .integer (signedOfWord (h.payload r))
  | .float => .float (UInt64.ofNat (h.payload r))
  | .symbol => .symbol
  | .pair => .pair (h.field r 0) (h.field r 1)
  | .string => .string (h.field r 0)
  | .truth => .boolean true
  | .falsity => .boolean false
  | .char => .char (charOfCode (h.field r 0))
  | .null => .null
  | .builtin => .builtin (h.field r 0) (h.field r 1)
  | .closure =>
    .closure
      { name := h.field r 0, formals := h.field r 1, env := h.field r 2, body := h.field r 3,
        arity := h.field r 4, rest := h.memory.byte (fieldAddress r 5) != 0 }
  | .vector => .vector (h.field r 0)
  | .eof => .eof
  | .environment =>
    .environment (if h.field r 0 = absent then none else some (h.field r 0))
  | .binding => .binding
  | .tagged => .tagged (h.field r 0) (h.field r 1)

def isSymbol (h : Heap) (r : Ref) : Bool := h.kind r == .symbol

def isPair (h : Heap) (r : Ref) : Bool := h.kind r == .pair

/-- Fails unless the record at `r` is of the given kind. -/
def expectKind (h : Heap) (kind : Kind) (expected : String) (r : Ref) : Except Fault Unit :=
  if h.kind r = kind then .ok () else .error (.wrongType expected (h.typeName r))

def car (h : Heap) (pair : Ref) : Except Fault Ref := do
  h.expectKind .pair "pair" pair
  return h.field pair 0

def cdr (h : Heap) (pair : Ref) : Except Fault Ref := do
  h.expectKind .pair "pair" pair
  return h.field pair 1

def expectInteger (h : Heap) (r : Ref) : Except Fault Int := do
  h.expectKind .integer "integer" r
  return signedOfWord (h.payload r)

def expectChar (h : Heap) (r : Ref) : Except Fault Char := do
  h.expectKind .char "char" r
  return charOfCode (h.field r 0)

def expectSymbol (h : Heap) (r : Ref) : Except Fault Unit := h.expectKind .symbol "symbol" r

def symbolName (h : Heap) (symbol : Ref) : Except Fault String := do
  h.expectSymbol symbol
  return Text.decode (h.nameBytes symbol)

def stringLength (h : Heap) (string : Ref) : Except Fault Nat := do
  h.expectKind .string "string" string
  return h.field string 0

def stringRef (h : Heap) (string : Ref) (index : Int) : Except Fault Char := do
  let i ← checkedIndex (← h.stringLength string) index
  return charOfCode (h.field string (1 + i))

def stringValue (h : Heap) (string : Ref) : Except Fault String := do
  let length ← h.stringLength string
  return String.ofList ((List.range length).map fun i => charOfCode (h.field string (1 + i)))

def vectorLength (h : Heap) (vector : Ref) : Except Fault Nat := do
  h.expectKind .vector "vector" vector
  return h.field vector 0

def vectorRef (h : Heap) (vector : Ref) (index : Int) : Except Fault Ref := do
  let i ← checkedIndex (← h.vectorLength vector) index
  return h.field vector (1 + i)

def closureView (h : Heap) (r : Ref) : Except Fault Closure :=
  match h.object r with
  | .closure c => .ok c
  | _ => .error (.wrongType "closure" (h.typeName r))

/-- The name a procedure was made under. -/
def procedureName (h : Heap) (r : Ref) : Except Fault String :=
  match h.object r with
  | .builtin name _ => h.symbolName name
  | .closure c => h.symbolName c.name
  | _ => .error (.wrongType "procedure" (h.typeName r))

/-- What a value that is no list is answered with when a list is wanted. -/
def improper (h : Heap) (list : Ref) : Except Fault Nat :=
  .error (.wrongType "proper list" (h.typeName list))

/-- Counts pairs with two cursors. In each round `fast` takes two pairs and `slow` one, so that on
a circle they meet. There is no answer if the rounds do not suffice. -/
def listLengthFrom (h : Heap) (list : Ref) :
    (rounds : Nat) → (slow fast : Ref) → (count : Nat) → Option (Except Fault Nat)
  | 0, _, _, _ => none
  | rounds + 1, slow, fast, count =>
    match h.object fast with
    | .null => some (.ok count)
    | .pair _ next =>
      match h.object next with
      | .null => some (.ok (count + 1))
      | .pair _ fast =>
        match h.cdr slow with
        | .ok slow =>
          if slow = fast then some (h.improper list)
          else h.listLengthFrom list rounds slow fast (count + 2)
        | .error fault => some (.error fault)
      | _ => some (h.improper list)
    | _ => some (h.improper list)

/-- The length of a list that ends in the empty list. No walk takes more rounds than the heap has
positions. -/
def listLength (h : Heap) (list : Ref) : Except Fault Nat :=
  (h.listLengthFrom list (h.capacity + 1) list list 0).getD (h.improper list)

/-- The elements of a list of exactly `n` elements. -/
def exactly (h : Heap) : (n : Nat) → (list : Ref) → Option (List Ref)
  | 0, list => if list = null then some [] else none
  | n + 1, list =>
    match h.object list with
    | .pair car cdr => (h.exactly n cdr).map (car :: ·)
    | _ => none

end Heap

namespace HeapM

def setCar (pair value : Ref) : HeapM Unit := do
  query (·.expectKind .pair "pair" pair)
  setField pair 0 value

def setCdr (pair value : Ref) : HeapM Unit := do
  query (·.expectKind .pair "pair" pair)
  setField pair 1 value

def stringSet (string : Ref) (index : Int) (c : Char) : HeapM Unit := do
  let length ← query (·.stringLength string)
  let i ← query fun _ => checkedIndex length index
  setField string (1 + i) c.toNat

def vectorSet (vector : Ref) (index : Int) (value : Ref) : HeapM Unit := do
  let length ← query (·.vectorLength vector)
  let i ← query fun _ => checkedIndex length index
  setField vector (1 + i) value

end HeapM

end ArenaScheme
