import JsonProjection.Number.Decimal

/-!
The value of a number text in a document.

Digits alone are an unsigned integer as long as they fit into 64 bits, a minus with digits is a
signed one as long as it fits, and every other numeral is a double, provided that it rounds to a
finite one.
-/

namespace JsonProjection

inductive Numeral where
  | unsigned (value : Nat)
  | signed (value : Int)
  | float (value : Binary64)
  deriving DecidableEq, Repr

namespace Numeral

/-- The integer that digits alone spell, below `2 ^ 64`. -/
def unsigned? (text : Bytes) : Option Nat :=
  if text.all Decimal.isDigit && Decimal.readDigits text < Nat.pow 2 64 then
    some (Decimal.readDigits text)
  else none

/-- The integer that a minus and digits spell, not below `-2 ^ 63`. -/
def signed? : Bytes → Option Int
  | 0x2D :: digits =>
    if !digits.isEmpty && digits.all Decimal.isDigit &&
        Decimal.readDigits digits ≤ Nat.pow 2 63 then
      some (-(Decimal.readDigits digits : Int))
    else none
  | _ => none

def float? (text : Bytes) : Option Binary64 :=
  match Decimal.ofBytes? text with
  | none => none
  | some decimal =>
    let value := decimal.toBinary64
    if value.isFinite then some value else none

def ofBytes? (text : Bytes) : Option Numeral :=
  match unsigned? text with
  | some value => some (.unsigned value)
  | none =>
    match signed? text with
    | some value => some (.signed value)
    | none => (float? text).map .float

end Numeral
end JsonProjection
