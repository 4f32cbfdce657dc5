import JsonProjection.Number.Digits

/-!
How doubles are written: the shortest digits in a plain or an exponent form, and fixed places.
-/

namespace JsonProjection

/-- The form of a number text: between the two exponents, ends included, digits stand around a point
with at least one digit behind it; outside, one digit stands before the point and an exponent with
its sign follows. -/
structure NumberLayout where
  leastPlain : Int
  greatestPlain : Int
  exponentMark : Char
  deriving Repr

namespace NumberLayout

/-- JSON numbers are written plainly from `0.00001` to `9999999999999999.0`. -/
def json : NumberLayout := ⟨-5, 15, 'e'⟩

def digitChar (digit : Nat) : Char :=
  Char.ofNat (0x30 + digit)

def plain (digits : List Char) (exponent : Int) : List Char :=
  if exponent < 0 then
    '0' :: '.' :: (List.replicate (-exponent - 1).toNat '0' ++ digits)
  else
    let places := exponent.toNat + 1
    let whole := digits.take places ++ List.replicate (places - digits.length) '0'
    let fraction := digits.drop places
    whole ++ '.' :: (if fraction.isEmpty then ['0'] else fraction)

def scientific (layout : NumberLayout) (digits : List Char) (exponent : Int) : List Char :=
  let fraction := digits.drop 1
  let point := if fraction.isEmpty then [] else '.' :: fraction
  let sign := if exponent < 0 then '-' else '+'
  digits.take 1 ++ point ++ layout.exponentMark :: sign :: Nat.toDigits 10 exponent.natAbs

def text (layout : NumberLayout) (x : Binary64) : List Char :=
  let shortest := Digits.ofCode x.code
  let digits := shortest.digits.map digitChar
  let body :=
    if layout.leastPlain ≤ shortest.exponent && shortest.exponent ≤ layout.greatestPlain then
      plain digits shortest.exponent
    else layout.scientific digits shortest.exponent
  if x.negative then '-' :: body else body

end NumberLayout

/-- A non-negative ratio with a fixed number of places, a half going to the even neighbour. -/
def fixedPlaces (places numerator denominator : Nat) : String :=
  let scaled := Binary64.roundDiv (numerator * Nat.pow 10 places) denominator
  let digits := Nat.toDigits 10 scaled
  let padded := List.replicate (places + 1 - digits.length) '0' ++ digits
  let whole := padded.take (padded.length - places)
  let fraction := padded.drop (padded.length - places)
  String.ofList (if places = 0 then whole else whole ++ '.' :: fraction)

end JsonProjection
