import JsonProjection.Number.Binary64

/-!
The fewest decimal digits that read back to the same double.

The reals that round to a double fill an interval around it. For one digit, two digits and so on the
two neighbours of the double on the decimal grid of that many digits are tried: the first grid on
which one of them lies inside the interval wins, and of two such neighbours the nearer one.
-/

namespace JsonProjection

/-- Decimal digits, highest first, and the decimal exponent of the first one: with a point behind
the first digit they spell a number to be multiplied by `10 ^ exponent`. -/
structure Digits where
  digits : List Nat
  exponent : Int
  deriving DecidableEq, Repr

namespace Digits

def count (n : Nat) : Nat :=
  (Nat.toDigits 10 n).length

def ofNat (n : Nat) : List Nat :=
  (Nat.toDigits 10 n).map fun c => c.toNat - 0x30

/-- The exponent of the first digit of a positive ratio: the `e` with
`10 ^ e ≤ numerator / denominator < 10 ^ (e + 1)`. -/
def leadingExponent (numerator denominator : Nat) : Int :=
  if denominator ≤ numerator then (count (numerator / denominator) : Int) - 1
  else
    let inverse : Nat := (denominator + numerator - 1) / numerator
    0 - (count (inverse - 1) : Int)

/-- The reals that round to a double, in units of a quarter of `2 ^ -1074`: its own place, the two
ends, and whether the ends belong to the interval. -/
structure Interval where
  low : Nat
  middle : Nat
  high : Nat
  closed : Bool

/-- The interval of a positive finite code. Below a power of two the doubles lie half as far apart
as above it, except at the two smallest exponents; ties go to even codes. -/
def Interval.ofCode (code : Nat) : Interval :=
  let step := Nat.pow 2 (code / Nat.pow 2 52 - 1)
  let middle := 4 * Binary64.units code
  let below := if code % Nat.pow 2 52 == 0 && 2 ≤ code / Nat.pow 2 52 then step else 2 * step
  ⟨middle - below, middle, middle + 2 * step, code % 2 == 0⟩

def Interval.holds (interval : Interval) (numerator denominator : Nat) : Bool :=
  let low := interval.low * denominator
  let high := interval.high * denominator
  if interval.closed then low ≤ numerator && numerator ≤ high
  else low < numerator && numerator < high

/-- The neighbour on the decimal grid with step `10 ^ place` that lies in the interval, as a
multiple of the step: of two the nearer one, of two equally near ones the even one. -/
def gridPoint? (interval : Interval) (place : Int) : Option Nat :=
  let quarters := 4 * Binary64.unitsOfOne
  let stepNumerator := if 0 ≤ place then quarters * Nat.pow 10 place.toNat else quarters
  let stepDenominator := if 0 ≤ place then 1 else Nat.pow 10 (-place).toNat
  let scaled := interval.middle * stepDenominator
  let below := scaled / stepNumerator
  let holds (multiple : Nat) : Bool := interval.holds (multiple * stepNumerator) stepDenominator
  match holds below && below != 0, holds (below + 1) with
  | false, false => none
  | true, false => some below
  | false, true => some (below + 1)
  | true, true =>
    let remainder := 2 * (scaled % stepNumerator)
    if remainder < stepNumerator then some below
    else if stepNumerator < remainder then some (below + 1)
    else if below % 2 == 0 then some below
    else some (below + 1)

def searchFrom (interval : Interval) (leading : Int) : Nat → Nat → Nat × Int
  | 0, digits => (0, leading + 1 - digits)
  | fuel + 1, digits =>
    let place := leading + 1 - digits
    match gridPoint? interval place with
    | some multiple => (multiple, place)
    | none => searchFrom interval leading fuel (digits + 1)

/-- The shortest digits of a finite code. Seventeen digits always suffice. -/
def ofCode (code : Nat) : Digits :=
  if code = 0 then ⟨[0], 0⟩
  else
    let leading := leadingExponent (Binary64.units code) Binary64.unitsOfOne
    let (multiple, place) := searchFrom (Interval.ofCode code) leading 17 1
    let digits := ofNat multiple
    let significant := (digits.reverse.dropWhile (· == 0)).reverse
    ⟨significant, place + digits.length - 1⟩

end Digits
end JsonProjection
