import ArenaScheme.Heap.Frame
import Mathlib

/-! Lexical scope without a memory. Things are known by the numbers they get when they are made, and
these never change. A frame is a map with an outer frame, and the value of a symbol is the one in the
nearest frame that binds it. This is what the operations on frames mean. -/

namespace ArenaScheme

/-- A thing, made of other things. -/
inductive Item where
  | symbol (name : String)
  | frame (outer : Option Nat) (vars : Nat → Option Nat)
  | pair (car cdr : Nat)
  | integer (value : Int)
  | float (bits : UInt64)
  | char (value : Char)
  | string (text : List Char)
  | vector (elements : List Nat)
  | builtin (name index : Nat)
  | closure (closure : Closure)
  | tagged (marker value : Nat)
  | singleton (kind : Kind)

namespace Item

def kind : Item → Kind
  | symbol _ => .symbol
  | frame _ _ => .environment
  | pair _ _ => .pair
  | integer _ => .integer
  | float _ => .float
  | char _ => .char
  | string _ => .string
  | vector _ => .vector
  | builtin .. => .builtin
  | closure _ => .closure
  | tagged .. => .tagged
  | singleton kind => kind

def hasName (name : String) : Item → Bool
  | symbol other => other == name
  | _ => false

/-- A frame with other variables. -/
def mapVars (change : (Nat → Option Nat) → Nat → Option Nat) : Item → Item
  | frame outer vars => frame outer (change vars)
  | item => item

end Item

/-- All things in the order in which they were made. -/
structure Store where
  items : List Item

namespace Store

/-- The singletons are there from the start, the empty list first. -/
def new : Store := ⟨[.singleton .null, .singleton .truth, .singleton .falsity, .singleton .eof]⟩

def item (A : Store) (i : Nat) : Item := A.items[i]?.getD (.singleton .null)

/-- A new thing and its number. -/
def make (A : Store) (item : Item) : Nat × Store := (A.items.length, ⟨A.items ++ [item]⟩)

def expect (A : Store) (kind : Kind) (expected : String) (i : Nat) : Except Fault Unit :=
  if (A.item i).kind = kind then .ok ()
  else .error (.wrongType expected (A.item i).kind.typeName)

def name (A : Store) (s : Nat) : String :=
  match A.item s with
  | .symbol name => name
  | _ => ""

def car (A : Store) (p : Nat) : Nat :=
  match A.item p with
  | .pair car _ => car
  | _ => 0

def cdr (A : Store) (p : Nat) : Nat :=
  match A.item p with
  | .pair _ cdr => cdr
  | _ => 0

def outer (A : Store) (f : Nat) : Option Nat :=
  match A.item f with
  | .frame outer _ => outer
  | _ => none

/-- The value of a symbol in a frame itself. -/
def value (A : Store) (f s : Nat) : Option Nat :=
  match A.item f with
  | .frame _ vars => vars s
  | _ => none

/-- A frame and its outer frames, which are older. -/
def chain (A : Store) (f : Nat) : List Nat :=
  f :: match A.outer f with
    | some o => if _h : o < f then A.chain o else []
    | none => []

/-- The nearest frame that binds a symbol. -/
def nearest (A : Store) (f s : Nat) : Option Nat :=
  (A.chain f).find? fun g => (A.value g s).isSome

/-- Another value for a symbol in a frame. -/
def setVar (A : Store) (f s v : Nat) : Store :=
  ⟨A.items.modify f (·.mapVars fun vars t => if t = s then some v else vars t)⟩

def visible (A : Store) (f s : Nat) : Except Fault Nat := do
  A.expect .environment "environment" f
  A.expect .symbol "symbol" s
  match A.nearest f s with
  | some g => return g
  | none => throw (.undefinedVariable (A.name s))

def lookup (A : Store) (f s : Nat) : Except Fault Nat := do
  let g ← A.visible f s
  return (A.value g s).getD 0

def assign (A : Store) (f s v : Nat) : Except Fault Store := do
  let g ← A.visible f s
  return A.setVar g s v

def define (A : Store) (f s v : Nat) : Except Fault Store := do
  A.expect .symbol "symbol" s
  if isReserved (A.name s) then throw (.reservedName (A.name s))
  A.expect .environment "environment" f
  return A.setVar f s v

def environment (A : Store) : (outer : Option Nat) → Except Fault (Nat × Store)
  | none => return A.make (.frame none fun _ => none)
  | some o => do
    A.expect .environment "environment" o
    return A.make (.frame (some o) fun _ => none)

/-- The one symbol of a name. -/
def intern (A : Store) (name : String) : Nat × Store :=
  match A.items.findIdx? (·.hasName name) with
  | some i => (i, A)
  | none => A.make (.symbol name)

def list (A : Store) (tail : Nat) : List Nat → Nat × Store
  | [] => (tail, A)
  | x :: xs => (A.list tail xs).2.make (.pair x (A.list tail xs).1)

/-- Binds the symbols of a list, one for each value. -/
def bindAll (A : Store) (frame : Nat) : (formals : Nat) → (values : List Nat) → Except Fault Store
  | _, [] => .ok A
  | formals, v :: values => do
    A.expect .pair "pair" formals
    let B ← A.define frame (A.car formals) v
    B.bindAll frame (B.cdr formals) values

/-- A new frame with parameters. With `rest` the last one takes a list of what is left. -/
def extend (A : Store) (parent formals arity : Nat) (rest : Bool) (args : List Nat) :
    Except Fault (Nat × Store) := do
  A.expect .environment "environment" parent
  let fixed ← HeapM.fixedParameters arity rest args.length
  let (surplus, B) := if rest then A.list 0 (args.drop fixed) else (0, A)
  let (frame, C) := B.make (.frame (some parent) fun _ => none)
  let D ← C.bindAll frame formals (args.take fixed ++ if rest then [surplus] else [])
  return (frame, D)

end Store

/-- What a client can do with frames. What it gets it keeps in a new slot. -/
inductive FrameOp where
  | null
  | integer (value : Int)
  | cons (car cdr : Slot)
  | intern (name : String)
  | environment (outer : Option Slot)
  | define (frame symbol value : Slot)
  | assign (frame symbol value : Slot)
  | lookup (frame symbol : Slot)
  | extend (parent formals : Slot) (arity : Nat) (rest : Bool) (args : Slot)
  | release (count : Nat)
  | collect

/-- A client: the things there are, and those that its slots hold. -/
structure Client where
  store : Store
  slots : List Nat

namespace Client

def new : Client := ⟨.new, []⟩

def slot (c : Client) (s : Slot) : Nat := c.slots[s]?.getD 0

def hold (c : Client) (result : Nat × Store) : Client := ⟨result.2, c.slots ++ [result.1]⟩

/-- What an operation means. -/
def step (c : Client) : FrameOp → Except Fault Client
  | .null => return c.hold (0, c.store)
  | .integer value =>
    return c.hold (c.store.make (.integer (signedOfWord (value % 18446744073709551616).toNat)))
  | .cons car cdr => return c.hold (c.store.make (.pair (c.slot car) (c.slot cdr)))
  | .intern name => return c.hold (c.store.intern name)
  | .environment outer => return c.hold (← c.store.environment (outer.map c.slot))
  | .define frame symbol value =>
    return { c with store := ← c.store.define (c.slot frame) (c.slot symbol) (c.slot value) }
  | .assign frame symbol value =>
    return { c with store := ← c.store.assign (c.slot frame) (c.slot symbol) (c.slot value) }
  | .lookup frame symbol => return c.hold (← c.store.lookup (c.slot frame) (c.slot symbol), c.store)
  | .extend parent formals arity rest args =>
    return c.hold (← c.store.extend (c.slot parent) (c.slot formals) arity rest (c.slots.drop args))
  | .release count => return { c with slots := c.slots.take count }
  | .collect => return c

end Client

namespace FrameOp

open HeapM

/-- The operation on a heap, for any digest of names. A client lets only frames be outer frames. -/
def run (digest : List UInt8 → Nat) : FrameOp → HeapM Unit
  | null => hold (pure Heap.null)
  | integer value => hold (HeapM.integer value)
  | cons car cdr => hold do HeapM.cons (← root car) (← root cdr)
  | intern name => hold (internWith digest name)
  | environment none => hold (HeapM.environment none)
  | environment (some outer) => hold do
    let outer ← root outer
    query (·.expectFrame outer)
    HeapM.environment (some outer)
  | define frame symbol value => do HeapM.define (← root frame) (← root symbol) (← root value)
  | assign frame symbol value => do HeapM.assign (← root frame) (← root symbol) (← root value)
  | lookup frame symbol => hold do
    let frame ← root frame
    let symbol ← root symbol
    query (·.lookup frame symbol)
  | extend parent formals arity rest args => hold do
    let parent ← root parent
    query (·.expectFrame parent)
    HeapM.extend parent (← root formals) arity rest args
  | release count => releaseRoots count
  | collect => HeapM.collect
where
  hold (action : HeapM Ref) : HeapM Unit := do
    let _ ← pushRoot (← action)

/-- Runs the operation. When it fails, the slots it has taken are released. -/
def perform (digest : List UInt8 → Nat) (h : Heap) (op : FrameOp) : Except Fault Unit × Heap :=
  match op.run digest h with
  | .ok () g => (.ok (), g)
  | .error fault g => (.error fault, { g with roots := g.roots.shrink h.roots.size })

/-- The bytes that an operation takes at most, if the client has the given number of slots. -/
def need (slots : Nat) : FrameOp → Nat
  | integer _ | cons .. | environment _ => fieldsSize 2
  | intern name => symbolSize name.toUTF8.toList.length
  | define .. => fieldsSize 4
  | extend _ _ arity _ args => fieldsSize 2 * (slots - args + 1) + fieldsSize 4 * arity
  | _ => 0

end FrameOp

end ArenaScheme
