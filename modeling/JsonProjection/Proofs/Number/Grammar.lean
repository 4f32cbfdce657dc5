import JsonProjection.Number.Decimal
import Mathlib.Data.List.Induction
import Mathlib.Data.List.TakeWhile

/-!
Which texts are numerals, and what number each of them spells.

A `Spelling` is a numeral in its parts. A text is read as a number just where it is the text of a
spelling. The number read differs from the one spelled only in an exponent of 65536 or more.
-/

namespace JsonProjection
namespace Decimal

/-! ### Spellings -/

inductive Sign where
  | none
  | plus
  | minus
  deriving DecidableEq, Repr

def Sign.text : Sign → Bytes
  | .none => []
  | .plus => [0x2B]
  | .minus => [0x2D]

def Sign.negative : Sign → Bool
  | .minus => true
  | _ => false

/-- The exponent of a numeral: `e` or `E`, an optional sign, one digit at least. -/
structure Power where
  mark : UInt8
  sign : Sign
  digits : Bytes
  marked : mark = 0x65 ∨ mark = 0x45
  some : digits ≠ []
  all : digits.all isDigit = true

def Power.text (power : Power) : Bytes :=
  power.mark :: (power.sign.text ++ power.digits)

def Power.value (read : Bytes → Nat) (power : Power) : Int :=
  if power.sign.negative then -(read power.digits : Int) else read power.digits

/-- A numeral: an optional sign, digits with at most one point in front of, among or behind them,
one digit at least, and an optional exponent. -/
structure Spelling where
  sign : Sign
  whole : Bytes
  fraction : Option Bytes
  power : Option Power
  some : whole ++ fraction.getD [] ≠ []
  all : (whole ++ fraction.getD []).all isDigit = true

namespace Spelling

def fractionText : Option Bytes → Bytes
  | .none => []
  | .some digits => 0x2E :: digits

def powerText : Option Power → Bytes
  | .none => []
  | .some power => power.text

def text (spelling : Spelling) : Bytes :=
  spelling.sign.text ++
    (spelling.whole ++ (fractionText spelling.fraction ++ powerText spelling.power))

def decimal (read : Bytes → Nat) (spelling : Spelling) : Decimal :=
  ⟨spelling.sign.negative, digitsValue (spelling.whole ++ spelling.fraction.getD []),
    (spelling.power.map (·.value read)).getD 0 - (spelling.fraction.getD []).length⟩

def exact (spelling : Spelling) : Decimal :=
  spelling.decimal digitsValue

end Spelling

/-! ### Reading the text of a spelling -/

def EndsDigits (behind : Bytes) : Prop :=
  ∀ byte ∈ behind.head?, isDigit byte = false

theorem span_digits {digits behind : Bytes} (all : digits.all isDigit = true)
    (ends : EndsDigits behind) :
    (digits ++ behind).takeWhile isDigit = digits ∧
      (digits ++ behind).dropWhile isDigit = behind := by
  have every := List.all_eq_true.mp all
  rw [List.takeWhile_append_of_pos every, List.dropWhile_append_of_pos every]
  cases behind with
  | nil => exact ⟨List.append_nil digits, rfl⟩
  | cons byte rest =>
      have outside : isDigit byte = false := ends byte rfl
      rw [List.takeWhile_cons, List.dropWhile_cons, outside]
      exact ⟨List.append_nil digits, rfl⟩

theorem readSign_text (sign : Sign) {body : Bytes}
    (plain : ∀ byte ∈ body.head?, byte ≠ 0x2D ∧ byte ≠ 0x2B) :
    readSign (sign.text ++ body) = (sign.negative, body) := by
  cases sign with
  | plus => rfl
  | minus => rfl
  | none =>
      rw [Sign.text, List.nil_append]
      unfold readSign
      split
      · exact absurd rfl (plain _ rfl).1
      · exact absurd rfl (plain _ rfl).2
      · rfl

theorem readSign_cases (text : Bytes) :
    ∃ sign : Sign, (readSign text).1 = sign.negative ∧ sign.text ++ (readSign text).2 = text := by
  unfold readSign
  split
  · exact ⟨.minus, rfl, rfl⟩
  · exact ⟨.plus, rfl, rfl⟩
  · exact ⟨.none, rfl, rfl⟩

theorem isDigit_ne_sign {byte : UInt8} (digit : isDigit byte = true) :
    byte ≠ 0x2D ∧ byte ≠ 0x2B := by
  constructor <;> rintro rfl <;> cases digit

theorem readExponent?_text (power : Option Power) :
    readExponent? (Spelling.powerText power) =
      some ((power.map (·.value exponentValue)).getD 0) := by
  cases power with
  | none => rfl
  | some power =>
      obtain ⟨mark, sign, digits, marked, some, all⟩ := power
      have first : (mark == 0x65 || mark == 0x45) = true := by
        rw [Bool.or_eq_true, beq_iff_eq, beq_iff_eq]
        exact marked
      have plain : ∀ byte ∈ digits.head?, byte ≠ 0x2D ∧ byte ≠ 0x2B := by
        intro byte head
        exact isDigit_ne_sign (List.all_eq_true.mp all byte (List.mem_of_mem_head? head))
      have usual : (digits.isEmpty || !digits.all isDigit) = false := by
        rw [all, List.isEmpty_eq_false_iff.mpr some]
        rfl
      rw [Spelling.powerText, Power.text, readExponent?, if_pos first, readSign_text sign plain]
      simp only [usual, Bool.false_eq_true, if_false]
      rfl

theorem readExponent?_cases {text : Bytes} {exponent : Int}
    (read : readExponent? text = some exponent) :
    ∃ power : Option Power, Spelling.powerText power = text ∧
      exponent = (power.map (·.value exponentValue)).getD 0 := by
  cases text with
  | nil =>
      cases read
      exact ⟨none, rfl, rfl⟩
  | cons mark rest =>
      rw [readExponent?] at read
      split at read
      · rename_i marked
        obtain ⟨sign, negative, split⟩ := readSign_cases rest
        dsimp only at read
        split at read
        · cases read
        · rename_i usual
          rw [Bool.or_eq_true, not_or, List.isEmpty_iff, Bool.not_eq_true',
            Bool.not_eq_false] at usual
          cases read
          rw [Bool.or_eq_true, beq_iff_eq, beq_iff_eq] at marked
          refine ⟨some ⟨mark, sign, (readSign rest).2, marked, usual.1, usual.2⟩, ?_, ?_⟩
          · rw [Spelling.powerText, Power.text, split]
          · rw [negative]
            rfl
      · cases read

theorem endsDigits_powerText (power : Option Power) : EndsDigits (Spelling.powerText power) := by
  intro byte head
  cases power with
  | none => cases head
  | some power =>
      cases head
      rcases power.marked with small | large
      · rw [small]
        rfl
      · rw [large]
        rfl

theorem readFraction_text (fraction : Option Bytes) (power : Option Power)
    (all : (fraction.getD []).all isDigit = true) :
    readFraction (Spelling.fractionText fraction ++ Spelling.powerText power) =
      (fraction.getD [], Spelling.powerText power) := by
  cases fraction with
  | none =>
      rw [Spelling.fractionText, List.nil_append]
      unfold readFraction
      split
      · rename_i rest point
        -- A mark is no point.
        cases power with
        | none => cases point
        | some power =>
            obtain ⟨same, -⟩ := List.cons.inj point
            rcases power.marked with small | large
            · rw [small] at same
              cases same
            · rw [large] at same
              cases same
      · rfl
  | some digits =>
      rw [Option.getD_some] at all
      obtain ⟨own, behind⟩ := span_digits all (endsDigits_powerText power)
      rw [Spelling.fractionText, List.cons_append, readFraction, own, behind]
      rfl

theorem readFraction_cases (text : Bytes) :
    ∃ fraction : Option Bytes, (readFraction text).1 = fraction.getD [] ∧
      Spelling.fractionText fraction ++ (readFraction text).2 = text ∧
      (fraction.getD []).all isDigit = true := by
  unfold readFraction
  split
  · rename_i rest
    refine ⟨some (rest.takeWhile isDigit), rfl, ?_, List.all_takeWhile⟩
    rw [Spelling.fractionText, List.cons_append, List.takeWhile_append_dropWhile]
  · exact ⟨none, rfl, rfl, rfl⟩

/-! ### Texts that are read -/

theorem ofBytes?_text (spelling : Spelling) :
    ofBytes? spelling.text = some (spelling.decimal exponentValue) := by
  obtain ⟨sign, whole, fraction, power, some, all⟩ := spelling
  obtain ⟨front, back⟩ := Bool.and_eq_true_iff.mp (List.all_append ▸ all)
  have fractionRead := readFraction_text fraction power back
  have ends : EndsDigits (Spelling.fractionText fraction ++ Spelling.powerText power) := by
    cases fraction with
    | none => exact endsDigits_powerText power
    | some digits =>
        intro byte head
        cases head
        rfl
  obtain ⟨own, behind⟩ := span_digits front ends
  have plain : ∀ byte ∈ (whole ++ (Spelling.fractionText fraction ++
      Spelling.powerText power)).head?, byte ≠ 0x2D ∧ byte ≠ 0x2B := by
    intro byte head
    cases whole with
    | cons first rest =>
        cases head
        exact isDigit_ne_sign (List.all_eq_true.mp front _ List.mem_cons_self)
    | nil =>
        cases fraction with
        | none => exact absurd rfl some
        | some digits =>
            cases head
            decide
  have usual : (whole.isEmpty && (fraction.getD []).isEmpty) = false := by
    rw [← Bool.not_eq_true, Bool.and_eq_true, List.isEmpty_iff, List.isEmpty_iff,
      ← List.append_eq_nil_iff]
    exact some
  rw [ofBytes?, Spelling.text, readSign_text sign plain]
  simp only [own, behind, fractionRead, usual, Bool.false_eq_true, if_false,
    readExponent?_text, Option.map_some, readDigits_eq]
  rfl

theorem ofBytes?_eq_some_iff {text : Bytes} {number : Decimal} :
    ofBytes? text = some number ↔
      ∃ spelling : Spelling, spelling.text = text ∧ spelling.decimal exponentValue = number := by
  constructor
  · intro read
    unfold ofBytes? at read
    dsimp only at read
    obtain ⟨sign, negative, body⟩ := readSign_cases text
    obtain ⟨fraction, own, behind, digits⟩ :=
      readFraction_cases ((readSign text).2.dropWhile isDigit)
    rw [own, readDigits_eq] at read
    split at read
    · cases read
    · rename_i usual
      rw [Bool.and_eq_true, List.isEmpty_iff, List.isEmpty_iff, ← List.append_eq_nil_iff] at usual
      obtain ⟨exponent, found, rfl⟩ := Option.map_eq_some_iff.mp read
      obtain ⟨power, last, rfl⟩ := readExponent?_cases found
      refine ⟨⟨sign, (readSign text).2.takeWhile isDigit, fraction, power, usual, ?_⟩, ?_, ?_⟩
      · rw [List.all_append, List.all_takeWhile, digits]
        rfl
      · rw [Spelling.text]
        dsimp only
        rw [last, behind, List.takeWhile_append_dropWhile, body]
      · rw [negative]
        rfl
  · rintro ⟨spelling, rfl, rfl⟩
    exact ofBytes?_text spelling

/-! ### Exponents that are read in part -/

/-- The double that a text is read as is the one nearest to the number that it spells. -/
def RoundsExactly (text : Bytes) : Prop :=
  ∀ (spelling : Spelling) (number : Decimal), spelling.text = text →
    ofBytes? text = some number → number.toBinary64 = spelling.exact.toBinary64

theorem digitsValue_snoc (digits : Bytes) (digit : UInt8) :
    digitsValue (digits ++ [digit]) = digitsValue digits * 10 + (digit.toNat - 0x30) :=
  List.foldl_append

theorem exponentValue_snoc (digits : Bytes) (digit : UInt8) :
    exponentValue (digits ++ [digit]) =
      if exponentValue digits < 65536 then exponentValue digits * 10 + (digit.toNat - 0x30)
      else exponentValue digits :=
  List.foldl_append

theorem exponentValue_cases (digits : Bytes) :
    exponentValue digits = digitsValue digits ∨
      (65536 ≤ exponentValue digits ∧ exponentValue digits ≤ digitsValue digits) := by
  induction digits using List.reverseRecOn with
  | nil => exact Or.inl rfl
  | append_singleton digits digit ih =>
      rw [exponentValue_snoc, digitsValue_snoc]
      split <;> omega

theorem digitsValue_lt {digits : Bytes} (all : digits.all isDigit = true) :
    digitsValue digits < Nat.pow 10 digits.length := by
  induction digits using List.reverseRecOn with
  | nil => exact Nat.one_pos
  | append_singleton digits digit ih =>
      rw [List.all_append, Bool.and_eq_true, List.all_cons, List.all_nil, Bool.and_true, isDigit,
        Bool.and_eq_true, decide_eq_true_iff, decide_eq_true_iff, UInt8.le_iff_toNat_le,
        UInt8.le_iff_toNat_le] at all
      obtain ⟨front, low, high⟩ := all
      have before := ih front
      have highest : (0x39 : UInt8).toNat = 0x39 := rfl
      rw [digitsValue_snoc, List.length_append, List.length_singleton, Nat.pow_eq, Nat.pow_succ,
        ← Nat.pow_eq]
      omega

theorem toBinary64_of_large {d : Decimal} (large : 310 ≤ d.exponent) :
    d.toBinary64 = ⟨d.negative, if d.significand = 0 then 0 else Binary64.infinityCode⟩ := by
  unfold toBinary64
  dsimp only
  rw [if_pos large]
  split <;> rfl

theorem toBinary64_of_small {d : Decimal}
    (small : d.exponent + (Nat.log2 d.significand / 3 + 1 : Nat) < -330) :
    d.toBinary64 = ⟨d.negative, 0⟩ := by
  unfold toBinary64
  dsimp only
  rw [if_pos small, if_neg (by omega : ¬ 310 ≤ d.exponent)]
  split <;> rfl

theorem log2_le {digits : Bytes} (all : digits.all isDigit = true) :
    Nat.log2 (digitsValue digits) ≤ 4 * digits.length := by
  by_cases zero : digitsValue digits = 0
  · rw [zero]
    exact Nat.zero_le _
  · apply Nat.le_of_lt
    rw [Nat.log2_lt zero, Nat.pow_mul]
    exact Nat.lt_of_lt_of_le (digitsValue_lt all) (Nat.pow_le_pow_left (by decide) _)

theorem Spelling.digits_length_le (spelling : Spelling) :
    (spelling.whole ++ spelling.fraction.getD []).length ≤ spelling.text.length := by
  rw [Spelling.text]
  cases spelling.fraction with
  | none =>
      simp only [Option.getD_none, List.length_append, List.length_nil]
      omega
  | some digits =>
      simp only [Option.getD_some, fractionText, List.length_append, List.length_cons]
      omega

theorem Spelling.toBinary64_far {spelling : Spelling} {power : Power} {read : Bytes → Nat}
    (powered : spelling.power = .some power) (short : spelling.text.length ≤ 48000)
    (large : 65536 ≤ read power.digits) :
    (spelling.decimal read).toBinary64 = ⟨spelling.sign.negative,
      if power.sign.negative ∨ digitsValue (spelling.whole ++ spelling.fraction.getD []) = 0 then 0
      else Binary64.infinityCode⟩ := by
  have fewer := spelling.digits_length_le
  have log := log2_le spelling.all
  have behind : (spelling.fraction.getD []).length ≤
      (spelling.whole ++ spelling.fraction.getD []).length := by
    rw [List.length_append]
    exact Nat.le_add_left _ _
  have exponent : (spelling.decimal read).exponent =
      power.value read - (spelling.fraction.getD []).length := by
    rw [decimal, powered]
    rfl
  have significand : (spelling.decimal read).significand =
      digitsValue (spelling.whole ++ spelling.fraction.getD []) := rfl
  rw [Power.value] at exponent
  cases sign : power.sign.negative with
  | false =>
      rw [sign, if_neg Bool.false_ne_true] at exponent
      rw [toBinary64_of_large (by omega), significand]
      simp only [Bool.false_eq_true, false_or]
      rfl
  | true =>
      rw [sign, if_pos rfl] at exponent
      rw [toBinary64_of_small (by rw [significand]; omega), if_pos (Or.inl rfl)]
      rfl

/-- Short texts and all exponents below 65536 are read exactly. -/
theorem RoundsExactly.of_usual {text : Bytes}
    (usual : text.length ≤ 48000 ∨ ∀ spelling : Spelling, spelling.text = text →
      ∀ power ∈ spelling.power, digitsValue power.digits < 65536) : RoundsExactly text := by
  rintro spelling number rfl read
  rw [ofBytes?_text, Option.some_inj] at read
  subst read
  cases powered : spelling.power with
  | none =>
      rw [Spelling.exact, Spelling.decimal, Spelling.decimal, powered]
      rfl
  | some power =>
      rcases exponentValue_cases power.digits with same | ⟨large, below⟩
      · rw [Spelling.exact, Spelling.decimal, Spelling.decimal, powered, Option.map_some,
          Option.map_some, Power.value, Power.value, same]
      · have short : spelling.text.length ≤ 48000 := by
          refine usual.resolve_right fun small => ?_
          have := small spelling rfl power powered
          omega
        rw [Spelling.exact, Spelling.toBinary64_far powered short large,
          Spelling.toBinary64_far powered short (Nat.le_trans large below)]

end Decimal
end JsonProjection
