import JsonProjection.Json.Value

/-!
Numbers of standard JSON.

The grammar has no superfluous zero in front, and digits on both sides of a point. Integers that fit
into 64 bits stay integers. Every other number is made of the leading digits that fit into 64 bits
and a power of ten, which are multiplied or divided as doubles.
-/

namespace JsonProjection.Json.StrictNumber

/-- The parts of a number text: its digits before and behind the point, and the exponent. A part
that is missing is `none`. -/
structure Parts where
  negative : Bool
  whole : Bytes
  fraction : Option Bytes
  exponent : Option (Bool × Bytes)

def exponentPart? : Bytes → Option (Option (Bool × Bytes))
  | [] => some none
  | mark :: rest =>
    if mark == 0x65 || mark == 0x45 then
      let (negative, digits) := Decimal.readSign rest
      if digits.isEmpty || !digits.all Decimal.isDigit then none else some (some (negative, digits))
    else none

def parts? (text : Bytes) : Option Parts :=
  let (negative, body) :=
    match text with
    | 0x2D :: rest => (true, rest)
    | _ => (false, text)
  let whole := body.takeWhile Decimal.isDigit
  let rest := body.dropWhile Decimal.isDigit
  if whole.isEmpty || (whole.head? == some 0x30 && 1 < whole.length) then none
  else
    match rest with
    | 0x2E :: rest =>
      let fraction := rest.takeWhile Decimal.isDigit
      if fraction.isEmpty then none
      else
        let exponent? := exponentPart? (rest.dropWhile Decimal.isDigit)
        exponent?.map (⟨negative, whole, some fraction, ·⟩)
    | _ => (exponentPart? rest).map (⟨negative, whole, none, ·⟩)

/-- Appends digits to a significand as long as the result stays below `2 ^ 64`: the significand, and
the digits from the first one that does not fit. -/
def takeDigits : Nat → Bytes → Nat × Bytes
  | significand, [] => (significand, [])
  | significand, digit :: rest =>
    let longer := significand * 10 + (digit.toNat - 0x30)
    if longer < Nat.pow 2 64 then takeDigits longer rest else (significand, digit :: rest)

/-- `significand * 10 ^ exponent` in double arithmetic, `none` standing for an overflow. An exponent
below `-308` is taken in steps of `-308`; `steps` bounds them, a double being zero after three. -/
def scale? : Nat → Binary64 → Int → Option Binary64
  | steps, x, exponent =>
    if exponent.natAbs ≤ 308 then
      let power := Binary64.ofNat (Nat.pow 10 exponent.natAbs)
      if 0 ≤ exponent then
        let product := x.mul power
        if product.isFinite then some product else none
      else some (x.div power)
    else if x.isZero then some x
    else if 0 ≤ exponent then none
    else
      match steps with
      | 0 => some x
      | steps + 1 => scale? steps (x.div (Binary64.ofNat (Nat.pow 10 308))) (exponent + 308)

def float? (parts : Parts) : Option Value :=
  let (significand, ignored) := takeDigits 0 parts.whole
  let (significand, dropped, fraction) :=
    match parts.fraction with
    | none => (significand, 0, 0)
    | some digits =>
      let (longer, rest) := takeDigits significand digits
      (longer, rest.length, digits.length)
  let written : Int :=
    match parts.exponent with
    | none => 0
    | some (negative, digits) =>
      let value : Int := Decimal.readDigits digits
      if negative then -value else value
  let exponent := written + (ignored.length : Int) + dropped - fraction
  (scale? 4 (Binary64.ofNat significand) exponent).map fun x =>
    .float (if parts.negative then x.neg else x)

/-- The value of a number text, if it is a number of standard JSON within the range of doubles. A
negative zero is a double, and so is an integer that does not fit into 64 bits. -/
def value? (text : Bytes) : Option Value :=
  (parts? text).bind fun parts =>
    if parts.fraction.isNone && parts.exponent.isNone then
      let (significand, ignored) := takeDigits 0 parts.whole
      if !ignored.isEmpty then float? parts
      else if !parts.negative then some (.integer significand)
      else if 0 < significand && significand ≤ Nat.pow 2 63 then
        some (.integer (-(significand : Int)))
      else some (.float (Binary64.ofNat significand).neg)
    else float? parts

end JsonProjection.Json.StrictNumber
