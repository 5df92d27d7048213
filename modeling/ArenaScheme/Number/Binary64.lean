/-! Floats of 64 bits, taken apart and put together by their bits with exact arithmetic on natural
numbers. -/

namespace ArenaScheme

namespace Binary64

/-- What the bits of a float stand for: `finite negative m q` is `m * 2 ^ q`, negated if
`negative`. -/
inductive View where
  | notANumber
  | infinite (negative : Bool)
  | finite (negative : Bool) (m : Nat) (q : Int)
  deriving DecidableEq, Repr

/-- The first bit of a significand, which is not stored. -/
def hiddenBit : Nat := 0x10000000000000

def infinity : Nat := 0x7ff0000000000000

def signBit : Nat := 0x8000000000000000

def view (bits : UInt64) : View :=
  let n := bits.toNat
  let negative := n / signBit == 1
  let exponent := n / hiddenBit % 2048
  let fraction := n % hiddenBit
  if exponent = 2047 then if fraction = 0 then .infinite negative else .notANumber
  else if exponent = 0 then .finite negative fraction (-1074)
  else .finite negative (hiddenBit + fraction) ((exponent : Int) - 1075)

/-- The quotient rounded to the nearest natural number, a half to the even neighbour. -/
def roundDiv (num den : Nat) : Nat :=
  let q := num / den
  let r := num % den
  if 2 * r > den || (2 * r == den && q % 2 == 1) then q + 1 else q

/-- `num / den` over `2 ^ e`, rounded. -/
def scaledQuotient (num den : Nat) (e : Int) : Nat :=
  match e with
  | .ofNat k => roundDiv num (den <<< k)
  | .negSucc k => roundDiv (num <<< (k + 1)) den

/-- The exponent of the last bit that a float keeps of `num / den`, which is not zero. -/
def lastBit (num den : Nat) : Int :=
  let guess : Int := (num.log2 : Int) - den.log2 - 52
  -- the quotient has its first bit at `guess + 52` or at the place below
  let below : Bool := match guess with
    | .ofNat k => num < den <<< (k + 52)
    | .negSucc k => num <<< (k + 1) < den * hiddenBit
  max (if below then guess - 1 else guess) (-1074)

/-- The bits of the float nearest to `num / den`, a half to the even neighbour. The bits of
neighbouring floats are neighbouring numbers, so a rounding that carries needs no care. -/
def nearest (negative : Bool) (num den : Nat) : UInt64 :=
  let magnitude :=
    if num = 0 then 0
    else
      let e := lastBit num den
      min ((e + 1074).toNat * hiddenBit + scaledQuotient num den e) infinity
  UInt64.ofNat (magnitude + if negative then signBit else 0)

def ofInt (i : Int) : UInt64 := nearest (i < 0) i.natAbs 1

/-- The integer part of a float, toward zero, if it is finite and fits 64 bits with its sign. -/
def truncate (bits : UInt64) : Option Int :=
  match view bits with
  | .finite negative m q =>
    let magnitude := match q with
      | .ofNat k => m <<< k
      | .negSucc k => m >>> (k + 1)
    if magnitude < signBit then
      some (if negative then -(magnitude : Int) else magnitude)
    else none
  | _ => none

end Binary64

end ArenaScheme
