import JsonProjection.Json.Printer
import JsonProjection.Proofs.Json.Numbers
import JsonProjection.Proofs.Text.Encoding
import JsonProjection.Proofs.Token.Layout

/-!
Printed numbers are number tokens.

An integer that fits into 64 bits is read back from its digits. Of a double it has to be known that
its text reads back; the text is then a token by itself, and no integer.
-/

namespace JsonProjection

open Lexer Text.Utf8

/-! ### Characters of numbers -/

def isNumberChar (c : Char) : Bool :=
  c.isDigit || c == '.' || c == 'e' || c == '-' || c == '+'

theorem isNumberChar_of_isDigit {c : Char} (digit : c.isDigit = true) : isNumberChar c = true := by
  rw [isNumberChar, digit]
  rfl

theorem isDigit_bounds {c : Char} (digit : c.isDigit = true) :
    0x30 ≤ c.toNat ∧ c.toNat ≤ 0x39 := by
  simp only [Char.isDigit, ge_iff_le, Bool.and_eq_true, decide_eq_true_eq] at digit
  exact digit

theorem digit_bytes {c : Char} (digit : c.isDigit = true) :
    String.utf8EncodeChar c = [UInt8.ofNat c.toNat] ∧ (UInt8.ofNat c.toNat).toNat = c.toNat ∧
      Decimal.isDigit (UInt8.ofNat c.toNat) = true := by
  obtain ⟨low, high⟩ := isDigit_bounds digit
  have same : (UInt8.ofNat c.toNat).toNat = c.toNat := by
    rw [UInt8.toNat_ofNat', Nat.mod_eq_of_lt (by omega)]
  refine ⟨?_, same, ?_⟩
  · rcases utf8EncodeChar_cases c with ⟨-, own⟩ | ⟨large, -⟩
    · exact own
    · omega
  · simp only [Decimal.isDigit, Bool.and_eq_true, decide_eq_true_eq, UInt8.le_iff_toNat_le, same]
    exact ⟨low, high⟩

theorem numberChar_bytes {c : Char} (inside : isNumberChar c = true) :
    ∃ byte, String.utf8EncodeChar c = [byte] ∧ isNumberByte byte = true := by
  simp only [isNumberChar, Bool.or_eq_true, beq_iff_eq] at inside
  rcases inside with (((digit | rfl) | rfl) | rfl) | rfl
  · obtain ⟨own, -, isDigit⟩ := digit_bytes digit
    refine ⟨_, own, ?_⟩
    rw [isNumberByte, isDigit]
    rfl
  · exact ⟨0x2E, rfl, rfl⟩
  · exact ⟨0x65, rfl, rfl⟩
  · exact ⟨0x2D, rfl, rfl⟩
  · exact ⟨0x2B, rfl, rfl⟩

theorem numberChars_bytes {text : List Char} (inside : ∀ c ∈ text, isNumberChar c = true) :
    ∀ byte ∈ text.flatMap String.utf8EncodeChar, isNumberByte byte = true := by
  intro byte member
  obtain ⟨c, here, among⟩ := List.mem_flatMap.mp member
  obtain ⟨own, spelled, number⟩ := numberChar_bytes (inside c here)
  rw [spelled, List.mem_singleton] at among
  rw [among]
  exact number

theorem Lexer.Lead.of_number {byte : UInt8}
    (begins : Decimal.isDigit byte = true ∨ byte = 0x2D) :
    Lead.of byte = .begin .number [byte] := by
  have apart (mark : UInt8) (other : (Decimal.isDigit mark || mark == 0x2D) = false) :
      (byte == mark) = false := by
    refine beq_false_of_ne fun same => ?_
    rw [← same] at other
    rcases begins with digit | minus
    · rw [digit] at other
      cases other
    · rw [minus] at other
      cases other
  have number : (Decimal.isDigit byte || byte == 0x2D) = true := by
    rw [Bool.or_eq_true, beq_iff_eq]
    exact begins
  unfold Lead.of
  simp only [apart 0x7B rfl, apart 0x7D rfl, apart 0x5B rfl, apart 0x5D rfl, apart 0x3A rfl,
    apart 0x2C rfl, apart 0x22 rfl, apart 0x74 rfl, apart 0x66 rfl, apart 0x6E rfl,
    Bool.false_eq_true, if_false, number, if_true]

theorem Spells.of_numeral {first : Char} {rest : List Char} {value : Numeral}
    (begins : first.isDigit = true ∨ first = '-')
    (inside : ∀ c ∈ first :: rest, isNumberChar c = true)
    (read : Numeral.ofBytes? ((first :: rest).flatMap String.utf8EncodeChar) = some value) :
    Spells ((first :: rest).flatMap String.utf8EncodeChar) (.number value) := by
  obtain ⟨byte, own, starts⟩ : ∃ byte, String.utf8EncodeChar first = [byte] ∧
      (Decimal.isDigit byte = true ∨ byte = 0x2D) := by
    rcases begins with digit | rfl
    · obtain ⟨own, -, isDigit⟩ := digit_bytes digit
      exact ⟨_, own, Or.inl isDigit⟩
    · exact ⟨0x2D, rfl, Or.inr rfl⟩
  have others := numberChars_bytes (List.forall_mem_cons.mp inside).2
  rw [List.flatMap_cons, own, List.singleton_append] at read ⊢
  exact .number (Lead.of_number starts) others read

/-! ### Integers -/

def Numeral.ofInt (value : Int) : Numeral :=
  if value < 0 then .signed value else .unsigned value.toNat

theorem Numeral.ofNumeral_ofInt (value : Int) :
    Json.Value.ofNumeral (.ofInt value) = .integer value := by
  unfold ofInt
  split
  · rfl
  · rename_i positive
    rw [Json.Value.ofNumeral, Int.toNat_of_nonneg (by omega)]

def Numeral.Fits (value : Int) : Prop :=
  -(Nat.pow 2 63 : Int) ≤ value ∧ value < Nat.pow 2 64

theorem Numeral.fits_of_ofBytes? {text : Bytes} {numeral : Numeral}
    (read : ofBytes? text = some numeral) {value : Int}
    (same : Json.Value.ofNumeral numeral = .integer value) : Fits value := by
  cases numeral with
  | unsigned n =>
      cases same
      obtain ⟨-, -, small⟩ := ofBytes?_unsigned_iff.mp read
      exact ⟨by omega, Int.ofNat_lt.mpr small⟩
  | signed z =>
      cases same
      obtain ⟨digits, -, -, -, small, rfl⟩ := ofBytes?_signed_iff.mp read
      have limit : 0 < Nat.pow 2 64 := Nat.two_pow_pos 64
      exact ⟨Int.neg_le_neg (Int.ofNat_le.mpr small), by omega⟩
  | float x => cases same

theorem digits_bytes {text : List Char} (digits : ∀ c ∈ text, c.isDigit = true) (start : Nat) :
    (text.flatMap String.utf8EncodeChar).all Decimal.isDigit = true ∧
      (text.flatMap String.utf8EncodeChar).foldl
        (fun value digit => value * 10 + (digit.toNat - 0x30)) start =
        Nat.ofDigitChars 10 text start := by
  induction text generalizing start with
  | nil => exact ⟨rfl, rfl⟩
  | cons c rest ih =>
      obtain ⟨digit, others⟩ := List.forall_mem_cons.mp digits
      obtain ⟨own, same, isDigit⟩ := digit_bytes digit
      obtain ⟨all, value⟩ := ih others (start * 10 + (c.toNat - 0x30))
      rw [List.flatMap_cons, own, List.singleton_append]
      refine ⟨?_, ?_⟩
      · rw [List.all_cons, isDigit, all]
        rfl
      · rw [List.foldl_cons, same, value, Nat.mul_comm]
        rfl

theorem toDigits_isDigit (n : Nat) : ∀ c ∈ Nat.toDigits 10 n, c.isDigit = true :=
  fun _ member => Nat.isDigit_of_mem_toDigits (by decide) (by decide) member

theorem toDigits_bytes (n : Nat) :
    (Nat.toDigits 10 n).flatMap String.utf8EncodeChar ≠ [] ∧
      ((Nat.toDigits 10 n).flatMap String.utf8EncodeChar).all Decimal.isDigit = true ∧
      Decimal.digitsValue ((Nat.toDigits 10 n).flatMap String.utf8EncodeChar) = n := by
  have digits := toDigits_isDigit n
  obtain ⟨all, value⟩ := digits_bytes digits 0
  refine ⟨fun none => ?_, all, ?_⟩
  · obtain ⟨c, rest, split⟩ := List.exists_cons_of_ne_nil (@Nat.toDigits_ne_nil n 10)
    rw [split] at digits none
    obtain ⟨own, -⟩ := digit_bytes (digits c List.mem_cons_self)
    rw [List.flatMap_cons, own] at none
    cases none
  · exact value.trans (Nat.ofDigitChars_toDigits (by decide) (by decide))

theorem Spells.integer {value : Int} (fits : Numeral.Fits value) :
    Spells ((Json.integerText value).flatMap String.utf8EncodeChar)
      (.number (.ofInt value)) := by
  obtain ⟨low, high⟩ := fits
  obtain ⟨some, all, same⟩ := toDigits_bytes value.natAbs
  obtain ⟨first, rest, split⟩ := List.exists_cons_of_ne_nil (@Nat.toDigits_ne_nil value.natAbs 10)
  have digits := toDigits_isDigit value.natAbs
  have inside : ∀ c ∈ Nat.toDigits 10 value.natAbs, isNumberChar c = true :=
    fun c member => isNumberChar_of_isDigit (digits c member)
  unfold Json.integerText Numeral.ofInt
  by_cases negative : value < 0
  · rw [if_pos negative, if_pos negative]
    refine .of_numeral (Or.inr rfl) (List.forall_mem_cons.mpr ⟨rfl, inside⟩) ?_
    have read := Numeral.ofBytes?_signed some all (by rw [same]; omega)
    have back : -(value.natAbs : Int) = value := by omega
    rw [same, back] at read
    exact read
  · rw [if_neg negative, if_neg negative]
    have read := Numeral.ofBytes?_unsigned all (by rw [same]; omega)
    have back : value.natAbs = value.toNat := by omega
    rw [same] at read
    rw [split] at read digits inside ⊢
    rw [← back]
    exact .of_numeral (Or.inl (digits first List.mem_cons_self)) inside read

/-! ### Doubles -/

namespace NumberLayout

theorem digitChar_isDigit {digit : Nat} (small : digit < 10) :
    (digitChar digit).isDigit = true := by
  have all : ∀ digit < 10, (digitChar digit).isDigit = true := by decide
  exact all digit small

theorem ofNat_lt (n : Nat) : ∀ digit ∈ Digits.ofNat n, digit < 10 := by
  intro digit member
  obtain ⟨c, among, rfl⟩ := List.mem_map.mp member
  have bounds := isDigit_bounds (toDigits_isDigit n c among)
  omega

theorem ofCode_lt (code : Nat) : ∀ digit ∈ (Digits.ofCode code).digits, digit < 10 := by
  unfold Digits.ofCode
  split
  · decide
  · intro digit member
    have kept := (List.dropWhile_sublist (· == 0)).subset (List.mem_reverse.mp member)
    exact ofNat_lt _ digit (List.mem_reverse.mp kept)

/-- How the text of a double is made up, a minus apart: of characters of numbers, among them a point
or an exponent mark, and with no sign in front. -/
structure Floats (text : List Char) : Prop where
  inside : ∀ c ∈ text, isNumberChar c = true
  mark : '.' ∈ text ∨ 'e' ∈ text
  begins : ∃ first rest, text = first :: rest ∧ (first.isDigit = true ∨ first = 'e')

variable {digits : List Char}

theorem zeros_digits (count : Nat) : ∀ c ∈ List.replicate count '0', c.isDigit = true := by
  intro c member
  rw [List.eq_of_mem_replicate member]
  rfl

theorem Floats.of_append {tail : List Char} (some : digits ≠ [])
    (all : ∀ c ∈ digits, c.isDigit = true) (inside : ∀ c ∈ tail, isNumberChar c = true)
    (mark : '.' ∈ tail ∨ 'e' ∈ tail) : Floats (digits ++ tail) := by
  obtain ⟨first, rest, rfl⟩ := List.exists_cons_of_ne_nil some
  refine ⟨?_, mark.imp (List.mem_append_right _) (List.mem_append_right _), first, rest ++ tail,
    rfl, Or.inl (all first List.mem_cons_self)⟩
  exact List.forall_mem_append.mpr ⟨fun c member => isNumberChar_of_isDigit (all c member), inside⟩

theorem plain_floats (all : ∀ c ∈ digits, c.isDigit = true) (exponent : Int) :
    Floats (plain digits exponent) := by
  unfold plain
  split
  · refine .of_append (List.cons_ne_nil '0' []) (List.forall_mem_singleton.mpr rfl)
      (List.forall_mem_cons.mpr ⟨rfl, ?_⟩) (Or.inl List.mem_cons_self)
    exact List.forall_mem_append.mpr ⟨fun c member => isNumberChar_of_isDigit
      (zeros_digits _ c member), fun c member => isNumberChar_of_isDigit (all c member)⟩
  · refine .of_append ?_ ?_ (List.forall_mem_cons.mpr ⟨rfl, ?_⟩) (Or.inl List.mem_cons_self)
    · refine List.ne_nil_of_length_pos ?_
      rw [List.length_append, List.length_take, List.length_replicate]
      omega
    · exact List.forall_mem_append.mpr
        ⟨fun c member => all c (List.mem_of_mem_take member), zeros_digits _⟩
    · split
      · exact List.forall_mem_singleton.mpr rfl
      · exact fun c member => isNumberChar_of_isDigit (all c (List.mem_of_mem_drop member))

theorem scientific_floats (all : ∀ c ∈ digits, c.isDigit = true) (exponent : Int) :
    Floats (json.scientific digits exponent) := by
  have power : ∀ c ∈ 'e' :: (if exponent < 0 then '-' else '+') ::
      Nat.toDigits 10 exponent.natAbs, isNumberChar c = true := by
    refine List.forall_mem_cons.mpr ⟨rfl, List.forall_mem_cons.mpr ⟨?_, fun c member => ?_⟩⟩
    · split <;> rfl
    · exact isNumberChar_of_isDigit (toDigits_isDigit _ c member)
  unfold scientific
  cases digits with
  | nil => exact ⟨power, Or.inr List.mem_cons_self, 'e', _, rfl, Or.inr rfl⟩
  | cons first fraction =>
      obtain ⟨digit, others⟩ := List.forall_mem_cons.mp all
      rw [List.append_assoc]
      refine .of_append (List.cons_ne_nil first []) (List.forall_mem_singleton.mpr digit)
        (List.forall_mem_append.mpr ⟨?_, power⟩)
        (Or.inr (List.mem_append_right _ List.mem_cons_self))
      rw [List.drop_one, List.tail_cons]
      split
      · exact List.forall_mem_nil _
      · exact List.forall_mem_cons.mpr
          ⟨rfl, fun c member => isNumberChar_of_isDigit (others c member)⟩

theorem text_floats (x : Binary64) :
    ∃ body, Floats body ∧ (json.text x = body ∨ json.text x = '-' :: body) := by
  have all : ∀ c ∈ (Digits.ofCode x.code).digits.map digitChar, c.isDigit = true := by
    intro c member
    obtain ⟨digit, among, rfl⟩ := List.mem_map.mp member
    exact digitChar_isDigit (ofCode_lt _ digit among)
  have body (plainly : Bool) : Floats (if plainly
      then plain ((Digits.ofCode x.code).digits.map digitChar) (Digits.ofCode x.code).exponent
      else json.scientific ((Digits.ofCode x.code).digits.map digitChar)
        (Digits.ofCode x.code).exponent) := by
    split
    · exact plain_floats all _
    · exact scientific_floats all _
  unfold text
  cases x.negative
  · exact ⟨_, body _, Or.inl rfl⟩
  · exact ⟨_, body _, Or.inr rfl⟩

variable {body : List Char}

theorem Floats.mixed (floats : Floats body) :
    (body.flatMap String.utf8EncodeChar).all Decimal.isDigit = false := by
  have among : ∃ mark ∈ body.flatMap String.utf8EncodeChar, Decimal.isDigit mark = false := by
    rcases floats.mark with point | power
    · exact ⟨0x2E, List.mem_flatMap.mpr ⟨'.', point, List.mem_singleton.mpr rfl⟩, rfl⟩
    · exact ⟨0x65, List.mem_flatMap.mpr ⟨'e', power, List.mem_singleton.mpr rfl⟩, rfl⟩
  obtain ⟨mark, member, other⟩ := among
  refine List.all_eq_false.mpr ⟨mark, member, ?_⟩
  rw [other]
  exact Bool.false_ne_true

end NumberLayout

theorem Numeral.ofBytes?_mixed {text body : Bytes} (mixed : body.all Decimal.isDigit = false)
    (spelled : text = 0x2D :: body ∨ text = body ∧ ∀ rest, text ≠ 0x2D :: rest) {x : Binary64}
    (reads : float? text = some x) : ofBytes? text = some (.float x) := by
  have other {limit : Prop} : ¬(body.all Decimal.isDigit = true ∧ limit) := by
    rw [mixed]
    exact fun both => Bool.false_ne_true both.1
  have unread : unsigned? text = none ∧ signed? text = none := by
    rcases spelled with rfl | ⟨rfl, plain⟩
    · exact ⟨unsigned?_minus body, signed?_none other⟩
    · exact ⟨unsigned?_none other, signed?_plain plain⟩
  unfold ofBytes?
  rw [unread.1, unread.2, reads]
  rfl

theorem Spells.double {x : Binary64}
    (reads : Numeral.float? ((NumberLayout.json.text x).flatMap String.utf8EncodeChar) = some x) :
    Spells ((NumberLayout.json.text x).flatMap String.utf8EncodeChar) (.number (.float x)) := by
  obtain ⟨body, floats, spelled⟩ := NumberLayout.text_floats x
  have mixed := floats.mixed
  rcases spelled with plain | negative
  · rw [plain] at reads ⊢
    obtain ⟨first, rest, rfl, digit | rfl⟩ := floats.begins
    · refine .of_numeral (Or.inl digit) floats.inside
        (Numeral.ofBytes?_mixed mixed (Or.inr ⟨rfl, fun others same => ?_⟩) reads)
      obtain ⟨own, -, isDigit⟩ := digit_bytes digit
      rw [List.flatMap_cons, own, List.singleton_append] at same
      rw [(List.cons.inj same).1] at isDigit
      cases isDigit
    · -- No numeral begins with an exponent mark.
      cases reads
  · rw [negative] at reads ⊢
    exact .of_numeral (Or.inr rfl) (List.forall_mem_cons.mpr ⟨rfl, floats.inside⟩)
      (Numeral.ofBytes?_mixed mixed (Or.inl rfl) reads)

end JsonProjection
