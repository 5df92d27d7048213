import ArenaScheme.Number.Binary64

/-! The decimal text of a float: the fewest digits that read back as the same float, and of those
the nearest to it. The text never has an exponent and always has a point. -/

namespace ArenaScheme

namespace Binary64

/-- The reals that round to a float: its value and its bounds, all times `2 ^ exponent`. -/
structure Interval where
  low : Nat
  value : Nat
  high : Nat
  exponent : Int
  /-- Whether the bounds themselves round to the float. -/
  closed : Bool

/-- Below a power of two the next float is only half as far away. -/
def interval (m : Nat) (q : Int) : Interval :=
  if m = hiddenBit then
    { low := 4 * m - 1, value := 4 * m, high := 4 * m + 2, exponent := q - 2, closed := true }
  else
    { low := 2 * m - 1, value := 2 * m, high := 2 * m + 1, exponent := q - 1,
      closed := m % 2 == 0 }

private def factor (base : Nat) : Int → Nat × Nat
  | .ofNat k => (base.pow k, 1)
  | .negSucc k => (1, base.pow (k + 1))

/-- A point of the decimal grid with step `10 ^ step` that rounds to the float: of the two around
its value the nearer one, the upper one if both are as near. -/
def onGrid (i : Interval) (step : Int) : Option Nat :=
  let (up2, down2) := factor 2 i.exponent
  let (up10, down10) := factor 10 (-step)
  let num := up2 * up10
  let den := down2 * down10
  let lower := i.value * num / den
  let upper := lower + 1
  let inside (d : Nat) : Bool :=
    if i.closed then i.low * num ≤ d * den && d * den ≤ i.high * num
    else i.low * num < d * den && d * den < i.high * num
  let lowerNearer := i.value * num - lower * den < upper * den - i.value * num
  match inside lower, inside upper with
  | true, true => some (if lowerNearer then lower else upper)
  | true, false => some lower
  | false, true => some upper
  | false, false => none

/-- The first grid, from coarse to fine, that has such a point, and that point. -/
def shortestFrom (i : Interval) : (fuel : Nat) → (step : Int) → Nat × Int
  | 0, step => ((onGrid i step).getD 0, step)
  | fuel + 1, step =>
    match onGrid i step with
    | some digits => (digits, step)
    | none => shortestFrom i fuel (step - 1)

/-- A power of ten above the value of the interval: it has fewer bits than `2 ^ places`. -/
def coarseStep (i : Interval) : Int :=
  let places := (i.value.log2 : Int) + i.exponent + 1
  places * 30103 / 100000 + 2

/-- The digits of `m * 2 ^ q` and the power of ten of the last one; seventeen digits always do. -/
def shortest (m : Nat) (q : Int) : Nat × Int :=
  let i := interval m q
  shortestFrom i 24 (coarseStep i)

/-- Writes `digits * 10 ^ step` with a point and without an exponent. -/
def positional (digits : Nat) (step : Int) : String :=
  let text := Nat.toDigits 10 digits
  match step with
  | .ofNat k => String.ofList (text ++ List.replicate k '0') ++ ".0"
  | .negSucc k =>
    let places := k + 1
    let text := List.replicate (places + 1 - text.length) '0' ++ text
    let whole := text.length - places
    String.ofList (text.take whole ++ '.' :: text.drop whole)

def toText (bits : UInt64) : String :=
  match view bits with
  | .notANumber => "NaN"
  | .infinite negative => if negative then "-inf" else "inf"
  | .finite negative m q =>
    let text :=
      if m = 0 then "0.0"
      else
        let (digits, step) := shortest m q
        positional digits step
    if negative then "-" ++ text else text

end Binary64

end ArenaScheme
