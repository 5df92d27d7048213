import ArenaScheme.Heap.Writer
import ArenaScheme.Reader

/-! The state of an interpreter and computations on it. -/

namespace ArenaScheme

/-- What the procedures of a session can be told to do. A host of another kind has procedures of its
own, see `Procedures`. -/
inductive Extension where
  /-- Gives back its first argument. -/
  | identity
  /-- Gives the number of its arguments. -/
  | count
  | fail
  | collect
  /-- Goes on with its argument as a form, in place of the call. -/
  | tailEvaluate
  /-- Evaluates its argument as a form, without expanding it. -/
  | evaluate
  /-- Expands its argument and evaluates it. -/
  | evaluateForm
  | apply
  | expand
  deriving DecidableEq, Repr

structure HostProcedure where
  name : String
  arity : Nat
  action : Extension
  deriving DecidableEq, Repr

structure Machine where
  heap : Heap
  keywords : Keywords
  /-- The outermost frame of variables. -/
  globals : Ref
  /-- The frame that binds the names of transformers. -/
  transformers : Ref
  /-- Procedures that were added after the primitives. -/
  hostProcedures : Array HostProcedure
  /-- What the program has displayed. -/
  output : String
  /-- Whether expansions and evaluations are noted in the journal. -/
  tracing : Bool
  deriving Inhabited

/-- Why a computation has no value. -/
inductive Stop where
  | fault (fault : Fault)
  | outOfFuel
  deriving DecidableEq, Repr

abbrev Eval := EStateM Stop Machine

namespace Eval

/-- Runs a computation on the machine's heap. -/
@[inline] def onHeap {α : Type} (action : HeapM α) : Eval α := fun m =>
  match action m.heap with
  | .ok a h => .ok a { m with heap := h }
  | .error fault h => .error (.fault fault) { m with heap := h }

instance : MonadLift HeapM Eval := ⟨onHeap⟩

@[inline] def fail {α : Type} (fault : Fault) : Eval α := throw (.fault fault)

@[inline] def outOfFuel {α : Type} : Eval α := throw .outOfFuel

@[inline] def object (r : Ref) : Eval Object := return (← get).heap.object r

/-- Runs a computation and then drops the roots it has left, whether it failed or not. -/
@[inline] def keepingRoots {α : Type} (action : Eval α) : Eval α := do
  let count ← HeapM.rootCount
  tryFinally action (onHeap (HeapM.releaseRoots count))

/-- The value of a form that is evaluated for its effect. -/
@[inline] def undefined : Eval Ref := return (← get).keywords.undefined

/-- Notes an event if the machine traces what it does. -/
def trace (event : Heap → Event) : Eval Unit := do
  if (← get).tracing then
    let event := event (← get).heap
    HeapM.note event

end Eval

/-- What is left to do after a special form or a call. -/
inductive Step where
  | done (value : Ref)
  /-- Go on with this form in this frame, in place of the form that was evaluated. -/
  | tail (form env : Ref)
  deriving DecidableEq, Repr

/-- The interpreter as seen by its own parts: how they evaluate, call and expand, and how many
rounds their loops may take. -/
structure Calls where
  rounds : Nat
  evaluate : (form env : Ref) → Eval Ref
  /-- Calls the procedure in a slot with the values in all slots from another one on. -/
  invoke : (operator args : Slot) → Eval Step
  expand : (form : Ref) → Eval Ref
  /-- Calls the procedure that has an index instead of a body. -/
  builtin : (index : Nat) → (args : List Ref) → Eval Step

/-- What procedures do that have an index; they may use the interpreter that calls them. -/
abbrev Procedures := (calls : Calls) → (index : Nat) → (args : List Ref) → Eval Step

end ArenaScheme
