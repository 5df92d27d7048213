import ArenaScheme.Heap.Writer
import ArenaScheme.Number.Numeral
import ArenaScheme.Proofs.Lexical

/-! What a program can ask of the things of a store, and how it can change them. The questions are
those that it asks of a heap, put to things that never move: what a thing is, what its parts are, how
long a list is, and how a value is written. -/

namespace ArenaScheme

namespace Item

/-- What a program sees of a thing. -/
def object : Item → Object
  | symbol _ => .symbol
  | frame outer _ => .environment outer
  | pair car cdr => .pair car cdr
  | integer value => .integer value
  | float bits => .float bits
  | char value => .char value
  | string text => .string text.length
  | vector elements => .vector elements.length
  | builtin name index => .builtin name index
  | closure c => .closure c
  | tagged marker value => .tagged marker value
  | singleton .truth => .boolean true
  | singleton .falsity => .boolean false
  | singleton .eof => .eof
  | singleton .binding => .binding
  | singleton _ => .null

def car? : Item → Option Nat
  | pair car _ => some car
  | _ => none

def cdr? : Item → Option Nat
  | pair _ cdr => some cdr
  | _ => none

def integer? : Item → Option Int
  | integer value => some value
  | _ => none

def number? : Item → Option Number
  | integer value => some (.integer value)
  | float bits => some (.float bits)
  | _ => none

def char? : Item → Option Char
  | char value => some value
  | _ => none

def name? : Item → Option String
  | symbol name => some name
  | _ => none

def text? : Item → Option (List Char)
  | string text => some text
  | _ => none

def elements? : Item → Option (List Nat)
  | vector elements => some elements
  | _ => none

def closure? : Item → Option Closure
  | closure c => some c
  | _ => none

/-- The marker and the value of a tagged value. -/
def parts? : Item → Option (Nat × Nat)
  | tagged marker value => some (marker, value)
  | _ => none

end Item

namespace Store

/-! The numbers of the singletons. -/

def null : Nat := 0

def truth : Nat := 1

def falsity : Nat := 2

def eof : Nat := 3

def boolean (b : Bool) : Nat := if b then truth else falsity

def object (A : Store) (i : Nat) : Object := (A.item i).object

def typeName (A : Store) (i : Nat) : String := (A.item i).kind.typeName

/-- What is wanted of a thing, if it is of the right sort. -/
def ask {α : Type} (A : Store) (expected : String) (view : Item → Option α) (i : Nat) :
    Except Fault α :=
  match view (A.item i) with
  | some a => .ok a
  | none => .error (.wrongType expected (A.typeName i))

def carOf (A : Store) : Nat → Except Fault Nat := A.ask "pair" Item.car?

def cdrOf (A : Store) : Nat → Except Fault Nat := A.ask "pair" Item.cdr?

def integerOf (A : Store) : Nat → Except Fault Int := A.ask "integer" Item.integer?

def numberOf (A : Store) : Nat → Except Fault Number := A.ask "number" Item.number?

def charOf (A : Store) : Nat → Except Fault Char := A.ask "char" Item.char?

def nameOf (A : Store) : Nat → Except Fault String := A.ask "symbol" Item.name?

def textOf (A : Store) : Nat → Except Fault (List Char) := A.ask "string" Item.text?

def elementsOf (A : Store) : Nat → Except Fault (List Nat) := A.ask "vector" Item.elements?

def closureOf (A : Store) : Nat → Except Fault Closure := A.ask "closure" Item.closure?

def partsOf (A : Store) : Nat → Except Fault (Nat × Nat) := A.ask "tag" Item.parts?

def stringRef (A : Store) (i : Nat) (index : Int) : Except Fault Char := do
  let text ← A.textOf i
  let k ← checkedIndex text.length index
  return text[k]?.getD Text.replacement

def vectorRef (A : Store) (i : Nat) (index : Int) : Except Fault Nat := do
  let elements ← A.elementsOf i
  let k ← checkedIndex elements.length index
  return elements[k]?.getD null

/-- Counts pairs until the empty list. A list of more pairs than there are things is cyclic. -/
def listLengthFrom (A : Store) : (fuel : Nat) → (list : Nat) → (count : Nat) → Option Nat
  | 0, _, _ => none
  | fuel + 1, list, count =>
    match A.object list with
    | .null => some count
    | .pair _ cdr => A.listLengthFrom fuel cdr (count + 1)
    | _ => none

def listLength (A : Store) (list : Nat) : Except Fault Nat :=
  match A.listLengthFrom (A.items.length + 1) list 0 with
  | some length => .ok length
  | none => .error (.wrongType "proper list" (A.typeName list))

/-- The elements of a list of exactly `n` elements. -/
def exactly (A : Store) : (n : Nat) → (list : Nat) → Option (List Nat)
  | 0, list => if list = null then some [] else none
  | n + 1, list =>
    match A.object list with
    | .pair car cdr => (A.exactly n cdr).map (car :: ·)
    | _ => none

/-- The first `n` elements of a list. -/
def firstElements (A : Store) : (n : Nat) → (list : Nat) → Except Fault (List Nat)
  | 0, _ => return []
  | n + 1, list => do
    let x ← A.carOf list
    let xs ← A.firstElements n (← A.cdrOf list)
    return x :: xs

mutual

/-- Appends the text of a thing to `out`. The pairs and vectors in `path` are being written further
out. -/
def textFrom (A : Store) (mode : WriteMode) :
    (fuel : Nat) → (path : Std.TreeSet Nat) → (i : Nat) → (out : String) → String
  | 0, _, _, out => out
  | fuel + 1, path, i, out =>
    match A.object i with
    | .integer value => out ++ toString value
    | .float bits => out ++ Binary64.toText bits
    | .symbol => out ++ A.name i
    | .string _ => out ++ mode.string (String.ofList ((A.item i).text?.getD []))
    | .boolean value => out ++ if value then "#t" else "#f"
    | .char value => out ++ mode.char value
    | .null => out ++ "()"
    | .eof => out ++ "<EOF>"
    | .pair .. =>
      if path.contains i then out ++ "..."
      else A.spineFrom mode fuel path i (out ++ "(") ++ ")"
    | .vector length =>
      if path.contains i then out ++ "..."
      else
        let path := path.insert i
        let elements := (A.item i).elements?.getD []
        (List.range length).foldl
          (fun out k =>
            A.textFrom mode fuel path (elements[k]?.getD null) (if k = 0 then out else out ++ " "))
          (out ++ "#(") ++ ")"
    | .builtin name _ => out ++ "<procedure " ++ A.name name ++ ">"
    | .closure c => out ++ "<procedure " ++ A.name c.name ++ ">"
    | .environment _ => out ++ "<environment>"
    | .binding => out ++ "<binding>"
    | .tagged _ value => A.textFrom mode fuel path value (out ++ "<tag ") ++ ">"

/-- Appends the elements of a list, which is not in `path`, and its tail. -/
def spineFrom (A : Store) (mode : WriteMode) :
    (fuel : Nat) → (path : Std.TreeSet Nat) → (i : Nat) → (out : String) → String
  | 0, _, _, out => out
  | fuel + 1, path, i, out =>
    match A.object i with
    | .pair car cdr =>
      let path := path.insert i
      let out := A.textFrom mode fuel path car out
      match A.object cdr with
      | .null => out
      | .pair .. =>
        if path.contains cdr then out ++ " . ..."
        else A.spineFrom mode fuel path cdr (out ++ " ")
      | _ => A.textFrom mode fuel path cdr (out ++ " . ")
    | _ => out

end

/-- The text of a value. Between two pairs or vectors of a path, which are all different, lie only
tagged values, which lead to older things; a list takes a step for itself and one for each of its
elements. -/
def text (A : Store) (mode : WriteMode) (i : Nat) : String :=
  A.textFrom mode (2 * ((A.items.length + 1) * (A.items.length + 1))) ∅ i ""

/-! Changes. -/

/-- Another thing under the same number. -/
def replace (A : Store) (i : Nat) (item : Item) : Store := ⟨A.items.set i item⟩

def setCar (A : Store) (pair value : Nat) : Except Fault Store := do
  return A.replace pair (.pair value (← A.cdrOf pair))

def setCdr (A : Store) (pair value : Nat) : Except Fault Store := do
  return A.replace pair (.pair (← A.carOf pair) value)

def stringSet (A : Store) (i : Nat) (index : Int) (c : Char) : Except Fault Store := do
  let text ← A.textOf i
  let k ← checkedIndex text.length index
  return A.replace i (.string (text.set k c))

def vectorSet (A : Store) (i : Nat) (index : Int) (value : Nat) : Except Fault Store := do
  let elements ← A.elementsOf i
  let k ← checkedIndex elements.length index
  return A.replace i (.vector (elements.set k value))

end Store

end ArenaScheme
