import JsonProjection.Number.Binary64
import JsonProjection.Source

/-!
Decimal numerals: their grammar, their exact value, and the double nearest to it.

A numeral is an optional sign, digits with at most one point among or around them (one digit at
least), and an optional exponent: `e` or `E`, an optional sign, one digit at least.
-/

namespace JsonProjection

structure Decimal where
  negative : Bool
  significand : Nat
  exponent : Int
  deriving DecidableEq, Repr

namespace Decimal

def isDigit (byte : UInt8) : Bool :=
  0x30 ≤ byte && byte ≤ 0x39

def digitsValue (digits : Bytes) : Nat :=
  digits.foldl (fun value digit => value * 10 + (digit.toNat - 0x30)) 0

def halvedValue : Nat → Bytes → Nat
  | 0, digits => digitsValue digits
  | depth + 1, digits =>
    let front := digits.length / 2
    halvedValue depth (digits.take front) * Nat.pow 10 (digits.drop front).length +
      halvedValue depth (digits.drop front)

/-- The value of a run of digits, read in parts of some dozens. A run of many thousand digits takes
much less time so than digit by digit. -/
def readDigits (digits : Bytes) : Nat :=
  halvedValue (Nat.log2 (digits.length / 32)) digits

private theorem foldl_digits (digits : Bytes) (start : Nat) :
    digits.foldl (fun value digit => value * 10 + (digit.toNat - 0x30)) start =
      start * Nat.pow 10 digits.length + digitsValue digits := by
  induction digits generalizing start with
  | nil => simp [digitsValue]
  | cons digit rest ih =>
    have expand : digitsValue (digit :: rest) =
        (0 * 10 + (digit.toNat - 0x30)) * Nat.pow 10 rest.length + digitsValue rest :=
      ih (0 * 10 + (digit.toNat - 0x30))
    have power : Nat.pow 10 (digit :: rest).length = 10 * Nat.pow 10 rest.length :=
      Nat.mul_comm _ 10
    rw [List.foldl_cons, ih, expand, power, Nat.zero_mul, Nat.zero_add, Nat.add_mul,
      Nat.add_assoc, Nat.mul_assoc]

theorem digitsValue_append (front back : Bytes) :
    digitsValue (front ++ back) =
      digitsValue front * Nat.pow 10 back.length + digitsValue back := by
  rw [digitsValue, List.foldl_append, foldl_digits]
  rfl

theorem halvedValue_eq (depth : Nat) (digits : Bytes) :
    halvedValue depth digits = digitsValue digits := by
  induction depth generalizing digits with
  | zero => rfl
  | succ depth ih =>
    rw [halvedValue, ih, ih, ← digitsValue_append, List.take_append_drop]

theorem readDigits_eq (digits : Bytes) : readDigits digits = digitsValue digits :=
  halvedValue_eq _ digits

def readSign : Bytes → Bool × Bytes
  | 0x2D :: rest => (true, rest)
  | 0x2B :: rest => (false, rest)
  | text => (false, text)

/-- The value of the digits of an exponent, which are read while it is below 65536. The digits
behind them count for nothing: such an exponent is far beyond the doubles, unless as many digits
of the numeral stand against it. -/
def exponentValue (digits : Bytes) : Nat :=
  digits.foldl
    (fun value digit => if value < 65536 then value * 10 + (digit.toNat - 0x30) else value) 0

def readExponent? : Bytes → Option Int
  | [] => some 0
  | mark :: rest =>
    if mark == 0x65 || mark == 0x45 then
      let (negative, digits) := readSign rest
      if digits.isEmpty || !digits.all isDigit then none
      else
        let value : Int := exponentValue digits
        some (if negative then -value else value)
    else none

def readFraction : Bytes → Bytes × Bytes
  | 0x2E :: rest => (rest.takeWhile isDigit, rest.dropWhile isDigit)
  | rest => ([], rest)

/-- The number that a text spells, its exponent read as `exponentValue` says, if the text is a
numeral. -/
def ofBytes? (text : Bytes) : Option Decimal :=
  let (negative, body) := readSign text
  let whole := body.takeWhile isDigit
  let (fraction, rest) := readFraction (body.dropWhile isDigit)
  if whole.isEmpty && fraction.isEmpty then none
  else
    (readExponent? rest).map fun exponent =>
      ⟨negative, readDigits (whole ++ fraction), exponent - fraction.length⟩

/-- The double nearest to a decimal, with the sign of the numeral. The first three cases answer
without building the power of ten: a zero, a number of `10 ^ 310` or more, and one below
`10 ^ -330`, a number with `n` binary digits being below `10 ^ (n / 3 + 1)`. -/
def toBinary64 (d : Decimal) : Binary64 :=
  let magnitude : Binary64 :=
    if d.significand = 0 then ⟨false, 0⟩
    else if 310 ≤ d.exponent then ⟨false, Binary64.infinityCode⟩
    else if d.exponent + (Nat.log2 d.significand / 3 + 1 : Nat) < -330 then ⟨false, 0⟩
    else if 0 ≤ d.exponent then Binary64.ofRatio (d.significand * Nat.pow 10 d.exponent.toNat) 1
    else Binary64.ofRatio d.significand (Nat.pow 10 (-d.exponent).toNat)
  ⟨d.negative, magnitude.code⟩

end Decimal
end JsonProjection
