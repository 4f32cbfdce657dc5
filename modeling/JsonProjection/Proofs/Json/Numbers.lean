import JsonProjection.Json.StrictNumber
import Mathlib.Data.List.TakeWhile

/-!
Two readings of a number text.

Documents and standard JSON read integers alike, except that a negative zero is a double in standard
JSON. Where one of the two reads a double, so does the other; that it is the same double has to be
known of the text.
-/

namespace JsonProjection.Json.StrictNumber

open Decimal

/-! ### Digits that fit into 64 bits -/

theorem le_foldl_digits (digits : Bytes) (start : Nat) :
    start ≤ digits.foldl (fun value digit => value * 10 + (digit.toNat - 0x30)) start := by
  induction digits generalizing start with
  | nil => exact Nat.le_refl start
  | cons digit rest ih =>
      have behind := ih (start * 10 + (digit.toNat - 0x30))
      rw [List.foldl_cons]
      omega

theorem takeDigits_of_fits {start : Nat} {digits : Bytes}
    (fits : digits.foldl (fun value digit => value * 10 + (digit.toNat - 0x30)) start <
      Nat.pow 2 64) :
    takeDigits start digits =
      (digits.foldl (fun value digit => value * 10 + (digit.toNat - 0x30)) start, []) := by
  induction digits generalizing start with
  | nil => rfl
  | cons digit rest ih =>
      rw [List.foldl_cons] at fits
      have longer := Nat.lt_of_le_of_lt (le_foldl_digits rest _) fits
      rw [takeDigits, List.foldl_cons]
      simp only [if_pos longer]
      exact ih fits

theorem takeDigits_of_exceeds {start : Nat} {digits : Bytes} (small : start < Nat.pow 2 64)
    (exceeds : Nat.pow 2 64 ≤
      digits.foldl (fun value digit => value * 10 + (digit.toNat - 0x30)) start) :
    (takeDigits start digits).2 ≠ [] := by
  induction digits generalizing start with
  | nil =>
      rw [List.foldl_nil] at exceeds
      omega
  | cons digit rest ih =>
      rw [takeDigits]
      by_cases longer : start * 10 + (digit.toNat - 0x30) < Nat.pow 2 64
      · simp only [if_pos longer]
        exact ih longer exceeds
      · simp only [if_neg longer]
        exact List.cons_ne_nil _ _

/-! ### The parts of a number -/

def partsBehind? (negative : Bool) (body : Bytes) : Option Parts :=
  let whole := body.takeWhile isDigit
  let rest := body.dropWhile isDigit
  if whole.isEmpty || (whole.head? == some 0x30 && 1 < whole.length) then none
  else
    match rest with
    | 0x2E :: rest =>
      let fraction := rest.takeWhile isDigit
      if fraction.isEmpty then none
      else
        let exponent? := exponentPart? (rest.dropWhile isDigit)
        exponent?.map (⟨negative, whole, some fraction, ·⟩)
    | _ => (exponentPart? rest).map (⟨negative, whole, none, ·⟩)

theorem parts?_minus (body : Bytes) : parts? (0x2D :: body) = partsBehind? true body :=
  rfl

theorem parts?_plain {text : Bytes} (plain : ∀ body, text ≠ 0x2D :: body) :
    parts? text = partsBehind? false text := by
  unfold parts?
  split
  next negative body split =>
    split at split
    · exact absurd rfl (plain _)
    · cases split
      rfl

theorem exponentPart?_none {text : Bytes} (read : exponentPart? text = some none) : text = [] := by
  cases text with
  | nil => rfl
  | cons mark rest =>
      unfold exponentPart? at read
      split at read
      · next same =>
        cases same
      · next first others same =>
        split at read
        · dsimp only at read
          split at read <;> cases read
        · cases read

/-- What the parts say about the text behind the sign: it is all digits just where there is neither
a fraction nor an exponent. -/
structure Parts.Behind (parts : Parts) (negative : Bool) (body : Bytes) : Prop where
  sign : parts.negative = negative
  whole : parts.whole = body.takeWhile isDigit
  some : parts.whole ≠ []
  lead : parts.whole.head? = .some 0x30 → parts.whole.length ≤ 1
  integral : (parts.fraction.isNone && parts.exponent.isNone) = body.all isDigit

theorem all_eq_isEmpty (body : Bytes) : body.all isDigit = (body.dropWhile isDigit).isEmpty := by
  rw [Bool.eq_iff_iff, List.all_eq_true, List.isEmpty_iff, List.dropWhile_eq_nil_iff]

theorem partsBehind?_behind {negative : Bool} {body : Bytes} {parts : Parts}
    (read : partsBehind? negative body = some parts) : parts.Behind negative body := by
  unfold partsBehind? at read
  dsimp only at read
  split at read
  · cases read
  next usual =>
    rw [Bool.or_eq_true, not_or, Bool.and_eq_true, beq_iff_eq, decide_eq_true_iff,
      List.isEmpty_iff] at usual
    have lead : (body.takeWhile isDigit).head? = some 0x30 →
        (body.takeWhile isDigit).length ≤ 1 := by
      intro zero
      exact Nat.le_of_not_lt fun long => usual.2 ⟨zero, long⟩
    split at read
    next rest point =>
      -- A point is no digit.
      have notAll : body.all isDigit = false := by rw [all_eq_isEmpty, point, List.isEmpty_cons]
      split at read
      · cases read
      · obtain ⟨exponent, _, rfl⟩ := Option.map_eq_some_iff.mp read
        exact ⟨rfl, rfl, usual.1, lead, notAll.symm⟩
    · obtain ⟨exponent, found, rfl⟩ := Option.map_eq_some_iff.mp read
      refine ⟨rfl, rfl, usual.1, lead, ?_⟩
      rw [all_eq_isEmpty]
      cases exponent with
      | none =>
          rw [exponentPart?_none found]
          rfl
      | some written =>
          cases rest : body.dropWhile isDigit with
          | nil =>
              rw [rest] at found
              cases found
          | cons byte behind => rfl

theorem float?_float {parts : Parts} {value : Value} (read : float? parts = some value) :
    ∃ x, value = .float x := by
  unfold float? at read
  obtain ⟨x, _, same⟩ := Option.map_eq_some_iff.mp read
  exact ⟨_, same.symm⟩

/-! ### The value of a number -/

section

variable {text body : Bytes} {negative : Bool} {parts : Parts}

theorem Parts.Behind.whole_eq (behind : parts.Behind negative body)
    (all : body.all isDigit = true) : parts.whole = body := by
  rw [behind.whole, List.takeWhile_eq_self_iff]
  exact List.all_eq_true.mp all

theorem value?_unsigned (read : parts? text = some parts) (behind : parts.Behind false body)
    (all : body.all isDigit = true) (fits : digitsValue body < Nat.pow 2 64) :
    value? text = some (.integer (digitsValue body)) := by
  have taken : takeDigits 0 body = (digitsValue body, []) := takeDigits_of_fits fits
  unfold value?
  rw [read, Option.bind_some]
  dsimp only
  rw [behind.integral, all, behind.whole_eq all, taken, behind.sign]
  rfl

theorem value?_signed (read : parts? text = some parts) (behind : parts.Behind true body)
    (all : body.all isDigit = true) (fits : digitsValue body ≤ Nat.pow 2 63)
    (positive : 0 < digitsValue body) :
    value? text = some (.integer (-(digitsValue body : Int))) := by
  have short : digitsValue body < Nat.pow 2 64 := Nat.lt_of_le_of_lt fits (by decide)
  have taken : takeDigits 0 body = (digitsValue body, []) := takeDigits_of_fits short
  unfold value?
  rw [read, Option.bind_some]
  dsimp only
  rw [behind.integral, all, behind.whole_eq all, taken, behind.sign]
  simp only [if_true, List.isEmpty_nil, Bool.not_true, Bool.false_eq_true, if_false, positive, fits,
    decide_true, Bool.and_self]

/-- The only zero behind a minus that standard JSON reads as an integer text is a single digit. -/
theorem Parts.Behind.zero (behind : parts.Behind negative body) (all : body.all isDigit = true)
    (zero : digitsValue body = 0) : body = [0x30] := by
  have whole := behind.whole_eq all
  have some := behind.some
  have lead := behind.lead
  rw [whole] at some lead
  cases body with
  | nil => exact absurd rfl some
  | cons digit rest =>
      have first : digit = 0x30 := by
        have above := le_foldl_digits rest (0 * 10 + (digit.toNat - 0x30))
        have own : isDigit digit = true := List.all_eq_true.mp all digit List.mem_cons_self
        rw [isDigit, Bool.and_eq_true, decide_eq_true_iff, decide_eq_true_iff,
          UInt8.le_iff_toNat_le] at own
        have value : digitsValue (digit :: rest) =
            rest.foldl (fun value digit => value * 10 + (digit.toNat - 0x30))
              (0 * 10 + (digit.toNat - 0x30)) := rfl
        have least : (0x30 : UInt8).toNat = 0x30 := rfl
        apply UInt8.toNat_inj.mp
        omega
      subst first
      have short := lead rfl
      rw [List.length_cons] at short
      rw [List.eq_nil_of_length_eq_zero (by omega : rest.length = 0)]

def Exceeds (negative : Bool) (body : Bytes) : Prop :=
  if negative then Nat.pow 2 63 < digitsValue body else Nat.pow 2 64 ≤ digitsValue body

theorem value?_float (read : parts? text = some parts) (behind : parts.Behind negative body)
    (float : body.all isDigit = true → Exceeds negative body) {value : Value}
    (strict : value? text = some value) : ∃ x, value = .float x := by
  unfold value? at strict
  rw [read, Option.bind_some] at strict
  dsimp only at strict
  rw [behind.integral] at strict
  cases all : body.all isDigit with
  | false =>
      rw [all, if_neg Bool.false_ne_true] at strict
      exact float?_float strict
  | true =>
      have exceeds := float all
      rw [all, if_pos rfl, behind.whole_eq all, behind.sign] at strict
      by_cases fits : digitsValue body < Nat.pow 2 64
      · -- Only the bound on negative numbers can be exceeded.
        have taken : takeDigits 0 body = (digitsValue body, []) := takeDigits_of_fits fits
        unfold Exceeds at exceeds
        cases negative with
        | false =>
            rw [if_neg Bool.false_ne_true] at exceeds
            omega
        | true =>
            rw [if_pos rfl] at exceeds
            have beyond : (decide (digitsValue body ≤ Nat.pow 2 63)) = false :=
              decide_eq_false (Nat.not_le_of_lt exceeds)
            rw [taken] at strict
            simp only [List.isEmpty_nil, Bool.not_true, Bool.false_eq_true, if_false, beyond,
              Bool.and_false] at strict
            exact ⟨_, (Option.some.inj strict).symm⟩
      · have ignored : (takeDigits 0 body).2 ≠ [] :=
          takeDigits_of_exceeds (by decide) (Nat.le_of_not_lt fits)
        rw [← List.isEmpty_eq_false_iff] at ignored
        rw [ignored] at strict
        exact float?_float strict

end

end JsonProjection.Json.StrictNumber

namespace JsonProjection.Numeral

open Decimal Json Json.StrictNumber

variable {text : Bytes}

/-! ### Texts of integers -/

/-- The text is digits alone, of a value below `2 ^ 64`. -/
def SpellsUnsigned (text : Bytes) (value : Nat) : Prop :=
  text.all isDigit = true ∧ digitsValue text = value ∧ value < Nat.pow 2 64

/-- The text is a minus and at least one digit, of a value up to `2 ^ 63`. -/
def SpellsSigned (text : Bytes) (value : Int) : Prop :=
  ∃ digits, text = 0x2D :: digits ∧ digits ≠ [] ∧ digits.all isDigit = true ∧
    digitsValue digits ≤ Nat.pow 2 63 ∧ value = -(digitsValue digits : Int)

theorem unsigned?_eq_some_iff {value : Nat} :
    unsigned? text = some value ↔ SpellsUnsigned text value := by
  rw [unsigned?, readDigits_eq, Option.ite_none_right_eq_some, Bool.and_eq_true,
    decide_eq_true_iff, Option.some_inj, SpellsUnsigned]
  constructor
  · rintro ⟨⟨all, small⟩, rfl⟩
    exact ⟨all, rfl, small⟩
  · rintro ⟨all, rfl, small⟩
    exact ⟨⟨all, small⟩, rfl⟩

theorem signed?_eq_some_iff {value : Int} :
    signed? text = some value ↔ SpellsSigned text value := by
  constructor
  · intro read
    unfold signed? at read
    split at read
    · rename_i digits
      rw [readDigits_eq, Option.ite_none_right_eq_some, Bool.and_eq_true, Bool.and_eq_true,
        Bool.not_eq_true', List.isEmpty_eq_false_iff, decide_eq_true_iff, Option.some_inj] at read
      obtain ⟨⟨⟨some, all⟩, small⟩, rfl⟩ := read
      exact ⟨digits, rfl, some, all, small, rfl⟩
    · cases read
  · rintro ⟨digits, rfl, some, all, small, rfl⟩
    rw [signed?, readDigits_eq, all, List.isEmpty_eq_false_iff.mpr some, decide_eq_true small]
    rfl

theorem not_signed_of_unsigned {n : Nat} (unsigned : SpellsUnsigned text n) (z : Int) :
    ¬ SpellsSigned text z := by
  rintro ⟨digits, rfl, -⟩
  have minus := List.all_eq_true.mp unsigned.1 0x2D List.mem_cons_self
  cases minus

theorem ofBytes?_unsigned_iff {n : Nat} :
    ofBytes? text = some (.unsigned n) ↔ SpellsUnsigned text n := by
  rw [← unsigned?_eq_some_iff, ofBytes?]
  rcases unsigned? text with _ | own
  · rcases signed? text with _ | other
    · simp
    · simp
  · simp

theorem ofBytes?_signed_iff {z : Int} :
    ofBytes? text = some (.signed z) ↔ SpellsSigned text z := by
  constructor
  · intro read
    rw [← signed?_eq_some_iff]
    unfold ofBytes? at read
    split at read
    · cases read
    · split at read
      · rename_i own
        cases read
        exact own
      · obtain ⟨x, -, impossible⟩ := Option.map_eq_some_iff.mp read
        cases impossible
  · intro spells
    have none : unsigned? text = none := by
      rw [Option.eq_none_iff_forall_ne_some]
      intro n unsigned
      exact not_signed_of_unsigned (unsigned?_eq_some_iff.mp unsigned) z spells
    rw [ofBytes?, none, signed?_eq_some_iff.mpr spells]

theorem ofBytes?_unsigned (all : text.all isDigit = true)
    (fits : digitsValue text < Nat.pow 2 64) :
    ofBytes? text = some (.unsigned (digitsValue text)) :=
  ofBytes?_unsigned_iff.mpr ⟨all, rfl, fits⟩

theorem unsigned?_minus (body : Bytes) : unsigned? (0x2D :: body) = none :=
  rfl

theorem signed?_plain (plain : ∀ body, text ≠ 0x2D :: body) : signed? text = none := by
  rw [Option.eq_none_iff_forall_ne_some]
  intro z read
  obtain ⟨digits, same, -⟩ := signed?_eq_some_iff.mp read
  exact plain digits same

theorem ofBytes?_signed {body : Bytes} (some : body ≠ []) (all : body.all isDigit = true)
    (fits : digitsValue body ≤ Nat.pow 2 63) :
    ofBytes? (0x2D :: body) = .some (.signed (-(digitsValue body : Int))) :=
  ofBytes?_signed_iff.mpr ⟨body, rfl, some, all, fits, rfl⟩

theorem unsigned?_none (other : ¬(text.all isDigit = true ∧ digitsValue text < Nat.pow 2 64)) :
    unsigned? text = none := by
  rw [Option.eq_none_iff_forall_ne_some]
  intro n read
  obtain ⟨all, rfl, fits⟩ := unsigned?_eq_some_iff.mp read
  exact other ⟨all, fits⟩

theorem signed?_none {body : Bytes}
    (other : ¬(body.all isDigit = true ∧ digitsValue body ≤ Nat.pow 2 63)) :
    signed? (0x2D :: body) = none := by
  rw [Option.eq_none_iff_forall_ne_some]
  intro z read
  obtain ⟨digits, same, some, all, fits, -⟩ := signed?_eq_some_iff.mp read
  cases same
  exact other ⟨all, fits⟩

theorem ofBytes?_float (unsigned : unsigned? text = none)
    (signed : signed? text = none) {numeral : Numeral} (read : ofBytes? text = some numeral) :
    ∃ y, numeral = .float y := by
  unfold ofBytes? at read
  rw [unsigned, signed] at read
  obtain ⟨y, _, same⟩ := Option.map_eq_some_iff.mp read
  exact ⟨y, same.symm⟩

end JsonProjection.Numeral

namespace JsonProjection.Json

open Decimal StrictNumber

/-- Both readings make the same double of a text, if both make a double of it. -/
def sameDouble (text : Bytes) : Bool :=
  match StrictNumber.value? text, Numeral.ofBytes? text with
  | some (.float x), some (.float y) => x == y
  | _, _ => true

theorem eq_of_sameDouble {text : Bytes} (same : sameDouble text = true) {value : Value}
    {numeral : Numeral} (strict : StrictNumber.value? text = some value)
    (read : Numeral.ofBytes? text = some numeral) (first : ∃ x, value = .float x)
    (second : ∃ y, numeral = .float y) : value = .ofNumeral numeral := by
  obtain ⟨x, rfl⟩ := first
  obtain ⟨y, rfl⟩ := second
  unfold sameDouble at same
  rw [strict, read] at same
  rw [Value.ofNumeral, eq_of_beq same]

theorem value?_ofBytes? {text : Bytes} {value : Value} {numeral : Numeral}
    (strict : StrictNumber.value? text = some value)
    (read : Numeral.ofBytes? text = some numeral) (notZero : text ≠ [0x2D, 0x30])
    (same : sameDouble text = true) : value = .ofNumeral numeral := by
  obtain ⟨parts, found, -⟩ := Option.bind_eq_some_iff.mp strict
  by_cases minus : ∃ body, text = 0x2D :: body
  · obtain ⟨body, rfl⟩ := minus
    have behind := partsBehind?_behind ((parts?_minus body).symm.trans found)
    by_cases integer : body.all isDigit = true ∧ digitsValue body ≤ Nat.pow 2 63
    · obtain ⟨all, fits⟩ := integer
      have some : body ≠ [] := behind.whole_eq all ▸ behind.some
      have positive : 0 < digitsValue body := by
        apply Nat.pos_of_ne_zero
        intro zero
        exact notZero (by rw [behind.zero all zero])
      rw [value?_signed found behind all fits positive] at strict
      rw [Numeral.ofBytes?_signed some all fits] at read
      cases strict
      cases read
      rfl
    · have exceeds : body.all isDigit = true → Exceeds true body :=
        fun all => Nat.lt_of_not_le fun fits => integer ⟨all, fits⟩
      exact eq_of_sameDouble same strict read (value?_float found behind exceeds strict)
        (Numeral.ofBytes?_float (Numeral.unsigned?_minus body) (Numeral.signed?_none integer) read)
  · have plain : ∀ body, text ≠ 0x2D :: body := fun body equal => minus ⟨body, equal⟩
    have behind := partsBehind?_behind ((parts?_plain plain).symm.trans found)
    by_cases integer : text.all isDigit = true ∧ digitsValue text < Nat.pow 2 64
    · obtain ⟨all, fits⟩ := integer
      rw [value?_unsigned found behind all fits] at strict
      rw [Numeral.ofBytes?_unsigned all fits] at read
      cases strict
      cases read
      rfl
    · have exceeds : text.all isDigit = true → Exceeds false text :=
        fun all => Nat.le_of_not_lt fun fits => integer ⟨all, fits⟩
      exact eq_of_sameDouble same strict read (value?_float found behind exceeds strict)
        (Numeral.ofBytes?_float (Numeral.unsigned?_none integer) (Numeral.signed?_plain plain) read)

end JsonProjection.Json
