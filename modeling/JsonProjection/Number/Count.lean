import JsonProjection.Number.Decimal

/-!
Counts that a user writes: sizes, capacities and the like.
-/

namespace JsonProjection.Count

def limit : Nat := Nat.pow 2 64

def digitsValue (digits : List Char) : Nat :=
  Decimal.readDigits (digits.map Char.toUInt8)

def isDigit (c : Char) : Bool :=
  '0' ≤ c && c ≤ '9'

/-- The count that a text spells: at least one digit, possibly behind a plus, and below the limit.
-/
def ofChars? (text : List Char) : Option Nat :=
  let digits :=
    match text with
    | '+' :: rest => rest
    | _ => text
  if digits.isEmpty || !digits.all isDigit then none
  else if digitsValue digits < limit then some (digitsValue digits)
  else none

end JsonProjection.Count
