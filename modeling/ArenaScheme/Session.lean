import ArenaScheme.Bootstrap
import ArenaScheme.Evaluation.Interpreter

/-! A session: a machine that is started, given texts one after the other, and asked about what
it holds. -/

namespace ArenaScheme

open HeapM Eval

namespace Machine

/-- Binds a name in the global frame to the builtin procedure with the given index. -/
def defineBuiltin (globals : Ref) (name : String) (index : Nat) : HeapM Ref := do
  let nameSlot ← pushRoot (← intern name)
  let slot ← pushRoot (← builtin (← root nameSlot) index)
  let outcome ← attempt (define globals (← root nameSlot) (← root slot))
  let procedure ← root slot
  releaseRoots nameSlot
  match outcome with
  | .ok () => return procedure
  | .error fault => throw fault

def defineBuiltins (globals : Ref) : List Primitive → (index : Nat) → HeapM Unit
  | [], _ => pure ()
  | primitive :: primitives, index => do
    let _ ← defineBuiltin globals primitive.name index
    defineBuiltins globals primitives (index + 1)

/-- Makes what every machine starts with. -/
def furnish : HeapM (Keywords × Ref × Ref) := do
  let keywords ← Keywords.intern
  let globals ← environment none
  let transformers ← environment none
  defineBuiltins globals Primitive.all 0
  return (keywords, globals, transformers)

/-- Furnishes the heap with records that are pinned. -/
def startUp : HeapM (Keywords × Ref × Ref) := do
  modify fun h => { h with pinning := true }
  let fixed ← furnish
  modify fun h => { h with pinning := false }
  return fixed

def defaultCapacity : Nat := 1048576

/-- A machine whose heap has the given size at first. -/
def start (capacity : Nat) : Except Fault Machine :=
  match startUp (Heap.new capacity) with
  | .ok (keywords, globals, transformers) heap =>
    .ok {
      heap, keywords, globals, transformers, hostProcedures := #[], output := "",
      tracing := false }
  | .error fault _ => .error fault

end Machine

namespace Session

/-- Enough for every computation that ends within a lifetime. -/
def fuel : Nat := 1000000000000000000

def calls : Calls := interpreter fuel

/-- Adds a procedure of the host under a global name. -/
def defineHostProcedure (procedure : HostProcedure) : Eval Ref := do
  let m ← get
  let index := Primitive.table.size + m.hostProcedures.size
  let globals := m.globals
  modify fun m => { m with hostProcedures := m.hostProcedures.push procedure }
  Machine.defineBuiltin globals procedure.name index

/-- The value of a global variable. -/
def lookupGlobal (name : String) : Eval Ref := do
  let symbol ← intern name
  let globals := (← get).globals
  query (·.lookup globals symbol)

/-- Reads one datum; gives it, or the fault, with the tokens that are left. -/
def read (failAtEnd : Bool) (tokens : List Token) : Eval (Except Fault Ref × List Token) := do
  let keywords := (← get).keywords
  Reader.read keywords failAtEnd tokens

/-- Reads and evaluates form after form; gives the value in slot `last` at the end. A read takes
at least one token, so there are at most as many rounds as tokens. -/
def evalTokens (calls : Calls) (last : Slot) : (rounds : Nat) → List Token → Eval Ref
  | 0, _ => root last
  | rounds + 1, tokens => do
    match ← read false tokens with
    | (.error fault, _) => fail fault
    | (.ok form, tokens) =>
      if form = Heap.eof then root last
      else
        setRoot last (← evalForm calls form)
        evalTokens calls last rounds tokens

/-- Evaluates every form of a text; gives the last value, or the empty list if there is none. -/
def evalTextWith (calls : Calls) (text : String) : Eval Ref :=
  keepingRoots do
    let last ← pushRoot Heap.null
    let tokens := Token.scan text
    evalTokens calls last (tokens.length + 1) tokens

def evalText (text : String) : Eval Ref := evalTextWith calls text

/-- Evaluates the text of a file. -/
def load (contents : Except FileProblem String) : Eval Ref :=
  match contents with
  | .ok text => evalText text
  | .error problem => fail (.fileFailure problem)

/-- The text in the bytes of a file. -/
def decode (bytes : ByteArray) : Except FileProblem String :=
  match String.fromUTF8? bytes with
  | some text => .ok text
  | none => .error .notText

end Session

end ArenaScheme
