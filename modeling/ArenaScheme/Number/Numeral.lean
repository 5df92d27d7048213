import ArenaScheme.Number.Decimal

/-! Numbers and their text. A numeral is an integer, a decimal with a point, or a hexadecimal
integer after `#x`; whatever else a word looks like, it is not a number. -/

namespace ArenaScheme

/-- The integers that fit 64 bits with their sign. -/
def fitsWord (i : Int) : Bool := -9223372036854775808 ≤ i && i ≤ 9223372036854775807

inductive Number where
  | integer (value : Int)
  | float (bits : UInt64)
  deriving DecidableEq, Repr

namespace Number

/-- The value of a digit, up to `z` for thirty-five; letters count in either case. -/
def digitValue (c : Char) : Nat :=
  if c.isDigit then c.toNat - 48
  else if c.isLower then c.toNat - 87
  else if c.isUpper then c.toNat - 55
  else 36

def isDigitIn (base : Nat) (c : Char) : Bool := digitValue c < base

/-- The number that digits stand for, the most significant first. -/
def ofDigits (base : Nat) (digits : List Char) : Nat :=
  digits.foldl (fun n c => base * n + digitValue c) 0

/-- Takes a sign off: whether it is negative, and what follows. -/
def splitSign : List Char → Bool × List Char
  | '-' :: rest => (true, rest)
  | '+' :: rest => (false, rest)
  | rest => (false, rest)

def signed (negative : Bool) (n : Nat) : Int := if negative then -(n : Int) else n

/-- An optional sign and one or more digits of the base, denoting a 64-bit integer. -/
def integerIn? (base : Nat) (text : List Char) : Option Int :=
  let (negative, digits) := splitSign text
  if digits ≠ [] ∧ digits.all (isDigitIn base) then
    let value := signed negative (ofDigits base digits)
    if fitsWord value then some value else none
  else none

/-- An integer numeral; one that does not fit 64 bits is a float. -/
def integer? (text : List Char) : Option Number :=
  let (negative, digits) := splitSign text
  if digits ≠ [] ∧ digits.all (isDigitIn 10) then
    let magnitude := ofDigits 10 digits
    let value := signed negative magnitude
    if fitsWord value then some (.integer value)
    else some (.float (Binary64.nearest negative magnitude 1))
  else none

/-- An optional sign, digits and a point among them, with at least one digit. -/
def decimal? (text : List Char) : Option Number :=
  let (negative, unsigned) := splitSign text
  let whole := unsigned.takeWhile (isDigitIn 10)
  match unsigned.dropWhile (isDigitIn 10) with
  | '.' :: fraction =>
    if fraction.all (isDigitIn 10) ∧ (whole ≠ [] ∨ fraction ≠ []) then
      some (.float
        (Binary64.nearest negative (ofDigits 10 (whole ++ fraction)) (Nat.pow 10 fraction.length)))
    else none
  | _ => none

/-- An optional sign and digits after `#x`. The magnitude alone has to fit 64 bits. -/
def hexadecimal? : List Char → Option Number
  | '#' :: 'x' :: text =>
    let (negative, digits) := splitSign text
    if digits ≠ [] ∧ digits.all (isDigitIn 16) then
      let magnitude := ofDigits 16 digits
      if fitsWord magnitude then some (.integer (signed negative magnitude)) else none
    else none
  | _ => none

/-- The number that a word denotes, if it is a numeral. -/
def parse? (word : List Char) : Option Number :=
  integer? word <|> decimal? word <|> hexadecimal? word

/-- The digits of an integer in a base, after a minus sign if it is negative. -/
def textIn (base : Nat) (i : Int) : String :=
  (if i < 0 then "-" else "") ++ String.ofList (Nat.toDigits base i.natAbs)

/-- The float that stands for a number in mixed arithmetic. -/
def toFloat : Number → Float
  | integer value => Float.ofBits (Binary64.ofInt value)
  | float bits => Float.ofBits bits

def ofFloat (x : Float) : Number := .float x.toBits

end Number

end ArenaScheme
