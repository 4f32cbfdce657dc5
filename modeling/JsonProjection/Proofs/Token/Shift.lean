import JsonProjection.Proofs.Text.Encoding
import JsonProjection.Proofs.Token.Layout

/-!
Bytes that stand further behind in a source.

Their tokens are the same ones, each as much further behind as the bytes are. White space spells no
token, and no number goes on in it.
-/

namespace JsonProjection

open Lexer

def Span.shift (offset : Nat) (span : Span) : Span :=
  ⟨span.start + offset, span.stop + offset⟩

theorem Span.length_shift (offset : Nat) (span : Span) : (span.shift offset).length = span.length :=
  Nat.add_sub_add_right span.stop offset span.start

theorem Span.of_shift {span : Span} {source : Bytes} (inside : span.stop ≤ source.length)
    (before after : Bytes) :
    (span.shift before.length).of (before ++ (source ++ after)) = span.of source := by
  unfold Span.of
  rw [length_shift, shift, Nat.add_comm, List.drop_length_add_append]
  by_cases some : span.start ≤ source.length
  · rw [List.drop_append_of_le_length some, List.take_append_of_le_length]
    rw [List.length_drop]
    unfold length
    omega
  · have none : span.length = 0 := by
      unfold length
      omega
    rw [none, List.take_zero, List.take_zero]

def Token.shift (offset : Nat) (token : Token) : Token :=
  ⟨token.kind, token.span.shift offset⟩

theorem Token.kinds_shift (offset : Nat) (tokens : List Token) :
    (tokens.map (Token.shift offset)).map (·.kind) = tokens.map (·.kind) := by
  rw [List.map_map]
  rfl

theorem Token.cover_shift (offset : Nat) {tokens : List Token} (some : tokens ≠ []) :
    cover (tokens.map (Token.shift offset)) = (cover tokens).shift offset := by
  obtain ⟨first, rest, rfl⟩ := List.exists_cons_of_ne_nil some
  have final := List.getLast?_eq_some_getLast some
  have moved : ((first :: rest).map (Token.shift offset)).getLast? =
      Option.some (((first :: rest).getLast some).shift offset) := by
    rw [List.getLast?_map, final]
    rfl
  rw [cover_of_ends rfl moved, cover_of_ends rfl final]
  rfl

namespace Layout

theorem shift {place : Nat} {bytes : Bytes} {tokens : List Token}
    (layout : Layout place bytes tokens) (offset : Nat) :
    Layout (place + offset) bytes (tokens.map (Token.shift offset)) := by
  induction layout with
  | nil place => exact .nil _
  | ignored lead _ ih =>
      rw [Nat.add_right_comm] at ih
      exact .ignored lead ih
  | @token place own rest kind tokens spells ends _ ih =>
      have moved := Layout.token spells ends (by rw [Nat.add_right_comm]; exact ih)
      rw [Nat.add_right_comm] at moved
      exact moved

end Layout

/-! ### White space -/

/-- White space, some at least, as it is encoded. -/
def Separates (gap : Bytes) : Prop :=
  ∃ text : List Char, text ≠ [] ∧ (∀ c ∈ text, Text.isBlank c = true) ∧
    gap = Text.Utf8.encode (.ofList text)

theorem Lexer.Lead.of_high {byte : UInt8} (high : 0x80 ≤ byte.toNat) :
    Lead.of byte = .ignored ∧ isNumberByte byte = false := by
  have other : ∀ mark ∈ ([0x7B, 0x7D, 0x5B, 0x5D, 0x3A, 0x2C, 0x22, 0x74, 0x66, 0x6E, 0x2D, 0x2E,
      0x65, 0x45, 0x2B] : Bytes), (byte == mark) = false := by
    intro mark member
    have ascii : ∀ mark ∈ ([0x7B, 0x7D, 0x5B, 0x5D, 0x3A, 0x2C, 0x22, 0x74, 0x66, 0x6E, 0x2D, 0x2E,
        0x65, 0x45, 0x2B] : Bytes), mark.toNat < 0x80 := by decide +kernel
    refine beq_eq_false_iff_ne.mpr fun same => ?_
    have small := ascii mark member
    rw [← same] at small
    omega
  simp only [List.forall_mem_cons] at other
  have noDigit : Decimal.isDigit byte = false := by
    have above : ¬ byte ≤ 0x39 := by
      simp only [UInt8.le_iff_toNat_le, UInt8.reduceToNat]
      omega
    rw [Decimal.isDigit, decide_eq_false above, Bool.and_false]
  constructor
  · simp only [Lead.of, other, noDigit, Bool.or_self, Bool.false_eq_true, if_false]
  · simp only [isNumberByte, other, noDigit, Bool.or_self]

theorem Separates.bytes {gap : Bytes} (separates : Separates gap) :
    gap ≠ [] ∧ ∀ byte ∈ gap, Lead.of byte = .ignored ∧ isNumberByte byte = false := by
  obtain ⟨text, some, blank, rfl⟩ := separates
  rw [Text.Utf8.encode_ofList]
  constructor
  · obtain ⟨c, rest, rfl⟩ := List.exists_cons_of_ne_nil some
    rw [List.flatMap_cons]
    exact List.append_ne_nil_of_left_ne_nil String.utf8EncodeChar_ne_nil _
  · intro byte member
    obtain ⟨c, inside, own⟩ := List.mem_flatMap.mp member
    rcases Text.Utf8.utf8EncodeChar_cases c with ⟨ascii, spelled⟩ | ⟨-, high⟩
    · rw [spelled] at own
      rw [List.mem_singleton.mp own]
      have listed : c.toNat ∈ [9, 10, 11, 12, 13, 0x20] := by
        have code := blank c inside
        simp only [Text.isBlank, Bool.or_eq_true, Bool.and_eq_true, decide_eq_true_eq, beq_iff_eq]
          at code
        simp only [List.mem_cons, List.not_mem_nil, or_false]
        omega
      have all : ∀ code ∈ [9, 10, 11, 12, 13, 0x20], Lead.of (UInt8.ofNat code) = .ignored ∧
          isNumberByte (UInt8.ofNat code) = false := by decide
      exact all _ listed
    · exact Lead.of_high (high byte own)

theorem Layout.behind_blank {place : Nat} {blank rest : Bytes} {tokens : List Token}
    (ignored : ∀ byte ∈ blank, Lead.of byte = .ignored)
    (behind : Layout (place + blank.length) rest tokens) :
    Layout place (blank ++ rest) tokens := by
  induction blank generalizing place with
  | nil => exact behind
  | cons byte others ih =>
      obtain ⟨own, further⟩ := List.forall_mem_cons.mp ignored
      rw [List.length_cons, ← Nat.add_assoc, Nat.add_right_comm] at behind
      exact .ignored own (ih further behind)

end JsonProjection
