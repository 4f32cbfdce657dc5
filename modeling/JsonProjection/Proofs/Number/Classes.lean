import JsonProjection.Proofs.Number.Grammar
import JsonProjection.Proofs.Number.Printed
import JsonProjection.Proofs.Number.Rounding
import JsonProjection.Proofs.Token.Shift
import JsonProjection.Proofs.Token.Spelling

/-!
What a lexer makes of a number text.

The text is an integer where it is all digits, or a minus and digits, and fits into 64 bits. Of the
other texts those are doubles that are numerals below the overflow, and the rest are errors.
-/

namespace JsonProjection
namespace Numeral

open Decimal

variable {text : Bytes}

/-! ### Texts of doubles -/

/-- The text is no integer of 64 bits, but a numeral below the overflow. -/
def SpellsFloat (text : Bytes) (value : Binary64) : Prop :=
  (∀ n, ¬ SpellsUnsigned text n) ∧ (∀ z, ¬ SpellsSigned text z) ∧
    ∃ spelling : Spelling, spelling.text = text ∧
      spelling.exact.magnitude < Binary64.overflow ∧ spelling.exact.toBinary64 = value

theorem float?_eq_some_iff (rounds : RoundsExactly text) {value : Binary64} :
    float? text = some value ↔ ∃ spelling : Spelling, spelling.text = text ∧
      spelling.exact.magnitude < Binary64.overflow ∧ spelling.exact.toBinary64 = value := by
  have own (spelling : Spelling) (number : Decimal) (same : spelling.text = text)
      (read : Decimal.ofBytes? text = some number) :
      number.toBinary64.isFinite = true ↔ spelling.exact.magnitude < Binary64.overflow := by
    rw [rounds spelling number same read]
    exact isFinite_toBinary64 spelling.exact
  unfold float?
  constructor
  · intro read
    split at read
    · cases read
    · rename_i number found
      obtain ⟨spelling, same, -⟩ := ofBytes?_eq_some_iff.mp found
      rw [Option.ite_none_right_eq_some, Option.some_inj] at read
      obtain ⟨finite, rfl⟩ := read
      exact ⟨spelling, same, (own spelling number same found).mp finite,
        (rounds spelling number same found).symm⟩
  · rintro ⟨spelling, same, below, rfl⟩
    obtain ⟨number, found⟩ : ∃ number, Decimal.ofBytes? text = some number :=
      ⟨_, ofBytes?_eq_some_iff.mpr ⟨spelling, same, rfl⟩⟩
    have finite := (own spelling number same found).mpr below
    rw [found]
    dsimp only
    rw [if_pos finite, rounds spelling number same found]

theorem ofBytes?_float_iff (rounds : RoundsExactly text) {x : Binary64} :
    ofBytes? text = some (.float x) ↔ SpellsFloat text x := by
  rw [SpellsFloat, ← float?_eq_some_iff rounds]
  simp only [← unsigned?_eq_some_iff, ← signed?_eq_some_iff,
    ← Option.eq_none_iff_forall_ne_some]
  unfold ofBytes?
  rcases unsigned? text with _ | n
  · rcases signed? text with _ | z
    · simp
    · simp
  · simp

theorem ofBytes?_eq_none_iff (rounds : RoundsExactly text) :
    ofBytes? text = none ↔ (∀ n, ¬ SpellsUnsigned text n) ∧ (∀ z, ¬ SpellsSigned text z) ∧
      ∀ x, ¬ SpellsFloat text x := by
  simp only [← ofBytes?_unsigned_iff, ← ofBytes?_signed_iff, ← ofBytes?_float_iff rounds]
  rcases ofBytes? text with _ | ⟨n | z | x⟩ <;> simp

end Numeral

namespace Lexer

/-! ### Numbers in a document -/

theorem isNumberByte_ascii {byte : UInt8} (inside : isNumberByte byte = true) :
    byte.toNat < 0x80 := by
  by_contra high
  have outside := (Lead.of_high (Nat.le_of_not_lt high)).2
  rw [inside] at outside
  cases outside

theorem document_number {lexer : Lexer} (idle : lexer.pending = none) {first : UInt8}
    {rest behind : Bytes} {chunks : List Bytes}
    (begins : Decimal.isDigit first = true ∨ first = 0x2D)
    (inside : ∀ byte ∈ rest, isNumberByte byte = true) (ends : EndsNumber behind)
    (cut : chunks.flatten = (first :: rest) ++ behind) (tokens : List Token) :
    let next : Lexer := { lexer with position := lexer.position + (first :: rest).length }
    lexer.document tokens chunks =
      match Numeral.ofBytes? (first :: rest) with
      | some value =>
        next.document (tokens ++ [⟨.number value, lexer.position, next.position⟩]) [behind]
      | none =>
        (tokens, some (.invalidNumber (Text.Utf8.decodeLossy (first :: rest)) lexer.position)) := by
  intro next
  have sound : lexer.Sound := by
    intro start pending
    rw [pendingStart?, idle] at pending
    cases pending
  have nextSound : next.Sound := by
    intro start pending
    rw [pendingStart?, show next.pending = none from idle] at pending
    cases pending
  have read := readOn_number idle (Lead.of_number begins) inside ends
  rw [document_readOn sound, cut, read]
  cases Numeral.ofBytes? (first :: rest) with
  | none => simp only [List.append_nil]
  | some value =>
      dsimp only
      rw [document_readOn nextSound, List.flatten_singleton, List.length_append, ← Nat.add_assoc]
      rcases next.readOn behind with ⟨own, _ | error⟩
      · simp only [List.append_assoc, List.cons_append]
        rfl
      · simp only [List.append_assoc, List.singleton_append]
        rfl

/-- Every number text of a document, in whatever chunks it comes, is a token of the numeral that it
spells, and the document goes on behind it. A text that spells none is an error, which shows the
text and points at its start. -/
theorem number_classified {lexer : Lexer} (idle : lexer.pending = none) {first : UInt8}
    {rest behind : Bytes} {chunks : List Bytes}
    (begins : Decimal.isDigit first = true ∨ first = 0x2D)
    (inside : ∀ byte ∈ rest, isNumberByte byte = true) (ends : EndsNumber behind)
    (cut : chunks.flatten = (first :: rest) ++ behind) (tokens : List Token) :
    let text := first :: rest
    let next : Lexer := { lexer with position := lexer.position + text.length }
    ∃ (result : Option Numeral) (shown : String), Text.Utf8.encode shown = text ∧
      lexer.document tokens chunks =
        (match result with
        | some value =>
          next.document (tokens ++ [⟨.number value, lexer.position, next.position⟩]) [behind]
        | none => (tokens, some (.invalidNumber shown lexer.position))) ∧
      (∀ n, result = some (.unsigned n) ↔ Numeral.SpellsUnsigned text n) ∧
      (∀ z, result = some (.signed z) ↔ Numeral.SpellsSigned text z) ∧
      (Decimal.RoundsExactly text →
        (∀ x, result = some (.float x) ↔ Numeral.SpellsFloat text x) ∧
        (result = none ↔ (∀ n, ¬ Numeral.SpellsUnsigned text n) ∧
          (∀ z, ¬ Numeral.SpellsSigned text z) ∧ ∀ x, ¬ Numeral.SpellsFloat text x)) := by
  intro text next
  have number : ∀ byte ∈ text, isNumberByte byte = true := by
    refine List.forall_mem_cons.mpr ⟨?_, inside⟩
    rcases begins with digit | rfl
    · rw [isNumberByte, digit]
      rfl
    · rfl
  refine ⟨Numeral.ofBytes? text, Text.Utf8.decodeLossy text, ?_,
    document_number idle begins inside ends cut tokens, fun n => Numeral.ofBytes?_unsigned_iff,
    fun z => Numeral.ofBytes?_signed_iff, fun rounds =>
      ⟨fun x => Numeral.ofBytes?_float_iff rounds, Numeral.ofBytes?_eq_none_iff rounds⟩⟩
  exact Text.Utf8.encode_decodeLossy fun byte member => isNumberByte_ascii (number byte member)

/-- The number lies just above the overflow, and is cut behind its point. -/
theorem number_classified_overflow :
    let lexer : Lexer := ⟨7, none, .owned "", StringCache.new 4 8⟩
    let rest : Bytes := [0x31, 0x2E, 0x37, 0x39, 0x37, 0x36, 0x39, 0x33, 0x31, 0x33, 0x34, 0x38,
      0x36, 0x32, 0x33, 0x31, 0x35, 0x39, 0x65, 0x33, 0x30, 0x38]
    let chunks : List Bytes := [0x2D :: rest.take 2, rest.drop 2 ++ [0x2C]]
    lexer.document [] chunks = ([], some (.invalidNumber "-1.7976931348623159e308" 7)) ∧
      ∀ x, ¬ Numeral.SpellsFloat (0x2D :: rest) x := by
  intro lexer rest chunks
  have lexed : lexer.document [] chunks =
      ([], some (.invalidNumber "-1.7976931348623159e308" 7)) := by decide +kernel
  have begins : Decimal.isDigit 0x2D = true ∨ (0x2D : UInt8) = 0x2D := Or.inr rfl
  have inside : ∀ byte ∈ rest, isNumberByte byte = true := by decide +kernel
  have ends : EndsNumber [0x2C] := by
    intro byte head
    cases head
    rfl
  have cut : chunks.flatten = (0x2D :: rest) ++ [0x2C] := rfl
  have short : Decimal.RoundsExactly (0x2D :: rest) := .of_usual (Or.inl (by decide))
  have idle : lexer.pending = none := rfl
  obtain ⟨result, shown, -, document, -, -, float⟩ :=
    number_classified idle begins inside ends cut []
  refine ⟨lexed, ?_⟩
  cases result with
  | none => exact ((float short).2.mp rfl).2.2
  | some value =>
      rw [lexed] at document
      cases document

end Lexer
end JsonProjection
