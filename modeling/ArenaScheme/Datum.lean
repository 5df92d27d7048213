/-! Data as trees, outside any heap. -/

namespace ArenaScheme

inductive Datum where
  | integer (value : Int)
  | float (bits : UInt64)
  | symbol (name : String)
  | string (text : String)
  | boolean (value : Bool)
  | char (value : Char)
  | null
  | eof
  | pair (car cdr : Datum)
  | vector (items : List Datum)
  | procedure (name : String)
  | environment
  | tagged (marker value : Datum)
  deriving Repr, Inhabited

namespace Datum

/-- The given items, ending in `tail`. -/
def dotted (items : List Datum) (tail : Datum) : Datum := items.foldr pair tail

def list (items : List Datum) : Datum := dotted items null

private def isNaN (bits : UInt64) : Bool := bits % 0x8000000000000000 > 0x7ff0000000000000

private def isZero (bits : UInt64) : Bool := bits % 0x8000000000000000 == 0

/-- Floats are the same when they are equal as numbers; all that are not a number are the same. -/
def sameFloat (a b : UInt64) : Bool :=
  a == b || (isNaN a && isNaN b) || (isZero a && isZero b)

mutual

/-- Equality of data, in which an integer never equals a float. -/
def same : Datum → Datum → Bool
  | integer a, integer b => a == b
  | float a, float b => sameFloat a b
  | symbol a, symbol b => a == b
  | string a, string b => a == b
  | boolean a, boolean b => a == b
  | char a, char b => a == b
  | null, null => true
  | eof, eof => true
  | pair a b, pair c d => a.same c && b.same d
  | vector a, vector b => sameItems a b
  | procedure a, procedure b => a == b
  | environment, environment => true
  | tagged a b, tagged c d => a.same c && b.same d
  | _, _ => false

def sameItems : List Datum → List Datum → Bool
  | [], [] => true
  | a :: as, b :: bs => a.same b && sameItems as bs
  | _, _ => false

end

end Datum

end ArenaScheme
