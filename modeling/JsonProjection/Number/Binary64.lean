/-!
Finite binary64 numbers, without machine arithmetic.

A double is its sign and its code, the low 63 bits of its word. Every finite double is a whole
number of units of `2 ^ -1074`, and codes rise with those numbers, so that rounding a ratio to a
double is rounding it to a whole number on a grid whose step is a power of two. All operations
here round the exact result once, to the nearest double and to the even code between two equally
near ones.
-/

namespace JsonProjection

/-- A double: its sign, and its exponent and fraction fields read as one number. -/
structure Binary64 where
  negative : Bool
  code : Nat
  deriving DecidableEq, Repr, Inhabited

namespace Binary64

/-- The code of infinity: all codes below it are finite. -/
def infinityCode : Nat := 2047 * Nat.pow 2 52

def unitsOfOne : Nat := Nat.pow 2 1074

def bits (x : Binary64) : Nat :=
  (if x.negative then Nat.pow 2 63 else 0) + x.code

/-- How many units of `2 ^ -1074` a finite code stands for: below `2 ^ 52` the code itself, above it
the fraction with its leading one, doubled with every step of the exponent. -/
def units (code : Nat) : Nat :=
  let leading := Nat.pow 2 52
  if code < leading then code else (leading + code % leading) * Nat.pow 2 (code / leading - 1)

def isFinite (x : Binary64) : Bool :=
  x.code < infinityCode

/-- A quotient rounded to the nearest whole number, a half going to the even neighbour. -/
def roundDiv (numerator denominator : Nat) : Nat :=
  let quotient := numerator / denominator
  let twice := 2 * (numerator % denominator)
  if denominator < twice || (twice == denominator && quotient % 2 == 1) then quotient + 1
  else quotient

/-- The code nearest to a ratio of units. Between `2 ^ (52 + s)` and `2 ^ (53 + s)` units the
doubles lie `2 ^ s` apart; a ratio that rounds to `2 ^ 1024` or above gets a code that is not
finite. -/
def codeOfUnits (numerator denominator : Nat) : Nat :=
  let shift := Nat.log2 (numerator / denominator) - 52
  shift * Nat.pow 2 52 + roundDiv numerator (denominator * Nat.pow 2 shift)

def ofRatio (numerator denominator : Nat) : Binary64 :=
  ⟨false, min (codeOfUnits (numerator * unitsOfOne) denominator) infinityCode⟩

def ofNat (n : Nat) : Binary64 :=
  ofRatio n 1

def neg (x : Binary64) : Binary64 :=
  ⟨!x.negative, x.code⟩

/-- The sum of two non-negative finite doubles. -/
def add (x y : Binary64) : Binary64 :=
  ofRatio (units x.code + units y.code) unitsOfOne

def mul (x y : Binary64) : Binary64 :=
  ofRatio (units x.code * units y.code) (unitsOfOne * unitsOfOne)

/-- The quotient of a non-negative finite double by a positive one. -/
def div (x y : Binary64) : Binary64 :=
  ofRatio (units x.code) (units y.code)

def isZero (x : Binary64) : Bool :=
  x.code == 0

end Binary64
end JsonProjection
