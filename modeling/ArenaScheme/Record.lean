import ArenaScheme.Memory

/-! Records in memory. A record starts with a header byte (mark, pin and kind) and a four-byte
forwarding field that only means something while a collection runs. Its contents follow as
four-byte fields, and all its references stand next to each other. -/

namespace ArenaScheme

/-- A record is named by the position of its first byte. -/
abbrev Ref := Nat

/-- The reference that leads nowhere: no outer frame, an empty subtree. -/
def absent : Ref := 4294967295

inductive Kind where
  | integer
  | float
  | symbol
  | pair
  | string
  | truth
  | falsity
  | char
  | null
  | builtin
  | closure
  | vector
  | eof
  | environment
  | binding
  | tagged
  deriving DecidableEq, Repr, Inhabited

namespace Kind

def code : Kind → Nat
  | integer => 0
  | float => 1
  | symbol => 2
  | pair => 3
  | string => 4
  | truth => 5
  | falsity => 6
  | char => 7
  | null => 8
  | builtin => 9
  | closure => 10
  | vector => 11
  | eof => 12
  | environment => 13
  | binding => 14
  | tagged => 15

def ofCode : Nat → Kind
  | 0 => integer
  | 1 => float
  | 2 => symbol
  | 3 => pair
  | 4 => string
  | 5 => truth
  | 6 => falsity
  | 7 => char
  | 8 => null
  | 9 => builtin
  | 10 => closure
  | 11 => vector
  | 12 => eof
  | 13 => environment
  | 14 => binding
  | _ => tagged

@[simp] theorem ofCode_code (k : Kind) : ofCode k.code = k := by cases k <;> rfl

theorem code_lt (k : Kind) : k.code < 16 := by cases k <;> decide

/-- The name of a value's type in messages and in the language. -/
def typeName : Kind → String
  | integer => "integer"
  | float => "float"
  | symbol => "symbol"
  | pair => "pair"
  | string => "string"
  | truth | falsity => "boolean"
  | char => "char"
  | null => "null"
  | builtin | closure => "procedure"
  | vector => "vector"
  | eof => "eof"
  | environment => "environment"
  | binding => "binding"
  | tagged => "tag"

end Kind

/-- The address of the `k`-th four-byte field of the record at `r`. -/
@[inline] def fieldAddress (r : Ref) (k : Nat) : Nat := r + 5 + 4 * k

/-- Addresses are numbers of 32 bits. -/
def addressSpace : Nat := 4294967296

/-- The address of a field of whatever `r` leads to. Past the last address comes the first one. -/
@[inline] def looseAddress (r : Ref) (k : Nat) : Nat := fieldAddress r k % addressSpace

theorem looseAddress_of_lt {r : Ref} {k : Nat} (h : fieldAddress r k < addressSpace) :
    looseAddress r k = fieldAddress r k := Nat.mod_eq_of_lt h

/-- The size of a header without contents, which is all that a singleton has. -/
def headerSize : Nat := 5

/-- A record that ends after `n` four-byte fields. -/
def fieldsSize (n : Nat) : Nat := 5 + 4 * n

/-- A closure has five fields and one byte for its rest flag. -/
def closureSize : Nat := fieldsSize 5 + 1

/-- A symbol has four fields before the bytes of its name. -/
def symbolSize (nameBytes : Nat) : Nat := fieldsSize 4 + nameBytes

/-- Strings and vectors have a length field before their elements. -/
def sequenceSize (length : Nat) : Nat := fieldsSize (1 + length)

namespace Memory

@[inline] def kind (m : Memory) (r : Ref) : Kind := Kind.ofCode ((m.byte r).toNat % 16)

@[inline] def isPinned (m : Memory) (r : Ref) : Bool := (m.byte r).toNat / 64 % 2 == 1

@[inline] def isMarked (m : Memory) (r : Ref) : Bool := 128 ≤ (m.byte r).toNat

/-- Sets the mark of a record that has none. -/
def mark (m : Memory) (r : Ref) : Memory := m.setByte r (m.byte r + 128)

/-- Clears the mark of a record. -/
def unmark (m : Memory) (r : Ref) : Memory := m.setByte r (m.byte r % 128)

/-- Where the record at `r` goes in the collection that is running. -/
def forward (m : Memory) (r : Ref) : Ref := m.word (r + 1)

def setForward (m : Memory) (r target : Ref) : Memory := m.setWord (r + 1) target

/-- A fresh header: not marked, with no forwarding. -/
def putHeader (m : Memory) (r : Ref) (kind : Kind) (pinned : Bool) : Memory :=
  (m.setByte r (UInt8.ofNat (kind.code + if pinned then 64 else 0))).setForward r 0

@[inline] def field (m : Memory) (r : Ref) (k : Nat) : Nat := m.word (fieldAddress r k)

def setField (m : Memory) (r : Ref) (k value : Nat) : Memory :=
  m.setWord (fieldAddress r k) value

/-- The number of bytes of the record at `r`, header included. It is a number of 32 bits, also
where a length that was overwritten would give more. -/
def recordSize (m : Memory) (r : Ref) : Nat :=
  match m.kind r with
  | .null | .truth | .falsity | .eof => headerSize
  | .char => fieldsSize 1
  | .integer | .float | .pair | .builtin | .environment | .tagged => fieldsSize 2
  | .binding => fieldsSize 4
  | .closure => closureSize
  | .symbol => symbolSize (m.field r 3) % 4294967296
  | .string | .vector => sequenceSize (m.field r 0) % 4294967296

/-- The first reference field of the record at `r`, and how many there are; no more than the memory
has bytes. -/
def referenceSpan (m : Memory) (r : Ref) : Nat × Nat :=
  match m.kind r with
  | .symbol | .pair | .environment | .tagged => (0, 2)
  | .closure | .binding => (0, 4)
  | .builtin => (0, 1)
  | .vector => (1, min (m.field r 0) m.size)
  | .integer | .float | .char | .string | .truth | .falsity | .null | .eof => (0, 0)

/-- The addresses of the reference fields of the record at `r`, in order. -/
def referenceAddresses (m : Memory) (r : Ref) : List Nat :=
  let (first, count) := m.referenceSpan r
  (List.range count).map fun i => fieldAddress r (first + i)

end Memory

end ArenaScheme
