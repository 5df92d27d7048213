import ArenaScheme.Keywords

/-! Reading data into the heap. The reader takes one token after the other and keeps a stack of
the forms that are still open; the elements of an open list or vector stand on the root stack. A
read that fails leaves the roots of its open forms, and the tokens after the one that failed. -/

namespace ArenaScheme

/-- A form that waits for its next datum or its end. Elements stand in the slots from `base` on. -/
inductive OpenForm where
  /-- The next datum is put into a form with this head. -/
  | quoted (head : Ref)
  | list (base : Slot)
  /-- A list after its dot: the next datum is its tail. -/
  | dotted (base : Slot)
  /-- A list whose tail stands in a slot of its own: only its end may follow. -/
  | tailed (base tail : Slot)
  | vector (base : Slot)
  deriving DecidableEq, Repr

inductive Progress where
  | value (value : Ref)
  | more (pending : List OpenForm)

namespace Reader

open HeapM

/-- Hands a datum to the innermost open form. -/
def deliver (keywords : Keywords) : List OpenForm → Ref → HeapM Progress
  | [], value => return .value value
  | .quoted head :: outer, value => do
    let tail ← cons value Heap.null
    deliver keywords outer (← cons head tail)
  | .list base :: outer, value => do
    if value = keywords.dot then
      if (← rootCount) > base then return .more (.dotted base :: outer)
      else throw .invalidDottedList
    else
      let _ ← pushRoot value
      return .more (.list base :: outer)
  | .dotted base :: outer, value => do
    return .more (.tailed base (← pushRoot value) :: outer)
  | .tailed .. :: _, _ => throw .invalidDottedList
  | .vector base :: outer, value => do
    if value = keywords.dot then throw .dotInVector
    let _ ← pushRoot value
    return .more (.vector base :: outer)

/-- Ends the innermost open form. -/
def close (keywords : Keywords) : List OpenForm → HeapM Progress
  | [] | .quoted _ :: _ | .dotted _ :: _ => throw (.unexpectedDelimiter ')')
  | .list base :: outer => do deliver keywords outer (← listFromRoots base Heap.null)
  | .tailed base slot :: outer => do
    let tail ← root slot
    releaseRoots slot
    deliver keywords outer (← listFromRoots base tail)
  | .vector base :: outer => do deliver keywords outer (← vectorFromRoots base)

/-- The record of a datum that is one word. -/
def atom : Atom → HeapM Ref
  | .boolean value => return Heap.boolean value
  | .number (.integer value) => integer value
  | .number (.float bits) => float bits
  | .symbol name => intern name
  | .string text => string text
  | .char value => character value

def accept (keywords : Keywords) (pending : List OpenForm) : Token → HeapM Progress
  | .openList => return .more (.list (← rootCount) :: pending)
  | .openVector => return .more (.vector (← rootCount) :: pending)
  | .close => close keywords pending
  | .quoteMark mark => return .more (.quoted (keywords.ofMark mark) :: pending)
  | .atom a => do deliver keywords pending (← atom a)
  | .fault fault => throw fault

/-- Reads until a datum is complete; gives it, or the fault, with the tokens that are left. -/
def readFrom (keywords : Keywords) (failAtEnd : Bool) :
    List OpenForm → List Token → HeapM (Except Fault Ref × List Token)
  | pending, [] =>
    return (if pending.isEmpty && !failAtEnd then .ok Heap.eof else .error .unexpectedEnd, [])
  | pending, token :: tokens => do
    match ← attempt (accept keywords pending token) with
    | .ok (.value value) => return (.ok value, tokens)
    | .ok (.more pending) => readFrom keywords failAtEnd pending tokens
    | .error fault => return (.error fault, tokens)

/-- Reads one datum. At the end of the text this is the end-of-input value, or a fault if
`failAtEnd` is set. -/
def read (keywords : Keywords) (failAtEnd : Bool) (tokens : List Token) :
    HeapM (Except Fault Ref × List Token) :=
  readFrom keywords failAtEnd [] tokens

end Reader

end ArenaScheme
