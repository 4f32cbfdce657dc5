import JsonProjection.Json.Printer
import JsonProjection.Proofs.Number.Printed
import JsonProjection.Proofs.Text.Encoding
import JsonProjection.Proofs.Token.Layout

/-!
Printed tokens.

A compact text is the texts of its tokens side by side. What is between the quotes of a printed
string stands for the string as long as it holds no control characters: these are printed as escape
sequences, of which a lexer drops the backslash only.
-/

namespace JsonProjection

open Lexer Text.Utf8

def Token.Kind.chars : Token.Kind → List Char
  | .openObject => ['\x7b']
  | .closeObject => ['\x7d']
  | .openArray => ['[']
  | .closeArray => [']']
  | .colon => [':']
  | .comma => [',']
  | .string text => Json.quoted text
  | .number (.unsigned value) => Json.integerText value
  | .number (.signed value) => Json.integerText value
  | .number (.float value) => NumberLayout.json.text value
  | .true => ['t', 'r', 'u', 'e']
  | .false => ['f', 'a', 'l', 's', 'e']
  | .null => ['n', 'u', 'l', 'l']
  | .endOfInput => []

def Token.Kind.bytes (kind : Token.Kind) : Bytes :=
  kind.chars.flatMap String.utf8EncodeChar

/-! ### Strings -/

theorem Quoted.append {first second raw more : Bytes} (quoted : Quoted first raw)
    (behind : Quoted second more) : Quoted (first ++ second) (raw ++ more) := by
  induction quoted with
  | nil => exact behind
  | plain noQuote noEscape _ ih => exact .plain noQuote noEscape ih
  | escaped byte _ ih => exact .escaped byte ih

theorem Quoted.of_plain {bytes : Bytes} (plain : ∀ byte ∈ bytes, byte ≠ 0x22 ∧ byte ≠ 0x5C) :
    Quoted bytes bytes := by
  induction bytes with
  | nil => exact .nil
  | cons byte rest ih =>
      obtain ⟨⟨noQuote, noEscape⟩, others⟩ := List.forall_mem_cons.mp plain
      exact .plain noQuote noEscape (ih others)

theorem escape_plain {c : Char} (noQuote : c ≠ '"') (noEscape : c ≠ '\\')
    (printable : 0x20 ≤ c.toNat) : Json.escape c = [c] := by
  have apart {other : Char} (control : other.toNat < 0x20) : c ≠ other := by
    rintro rfl
    omega
  unfold Json.escape
  rw [if_neg noQuote, if_neg noEscape, if_neg (by omega), if_neg (by omega),
    if_neg (apart (by decide)), if_neg (apart (by decide)), if_neg (apart (by decide)),
    if_neg (by omega)]

theorem Quoted.of_escape {c : Char} (printable : 0x20 ≤ c.toNat) :
    Quoted ((Json.escape c).flatMap String.utf8EncodeChar) (String.utf8EncodeChar c) := by
  by_cases quote : c = '"'
  · subst quote
    exact .escaped 0x22 .nil
  by_cases backslash : c = '\\'
  · subst backslash
    exact .escaped 0x5C .nil
  rw [escape_plain quote backslash printable, List.flatMap_singleton]
  refine .of_plain fun byte member => ?_
  rcases utf8EncodeChar_cases c with ⟨ascii, own⟩ | ⟨-, high⟩
  · rw [own, List.mem_singleton] at member
    have code : byte.toNat = c.toNat := by
      rw [member, UInt8.toNat_ofNat', Nat.mod_eq_of_lt (by omega)]
    refine ⟨fun same => quote (Char.toNat_inj.mp ?_), fun same => backslash (Char.toNat_inj.mp ?_)⟩
    · rw [← code, same]
      rfl
    · rw [← code, same]
      rfl
  · have large := high byte member
    exact ⟨fun same => absurd (same ▸ large) (by decide),
      fun same => absurd (same ▸ large) (by decide)⟩

theorem Quoted.of_text {text : List Char} (printable : ∀ c ∈ text, 0x20 ≤ c.toNat) :
    Quoted ((text.flatMap Json.escape).flatMap String.utf8EncodeChar)
      (text.flatMap String.utf8EncodeChar) := by
  induction text with
  | nil => exact .nil
  | cons c rest ih =>
      obtain ⟨own, others⟩ := List.forall_mem_cons.mp printable
      rw [List.flatMap_cons, List.flatMap_append, List.flatMap_cons]
      exact (Quoted.of_escape own).append (ih others)

theorem Spells.quoted {text : String} (printable : ∀ c ∈ text.toList, 0x20 ≤ c.toNat) :
    Spells (Token.Kind.string text).bytes (.string text) := by
  have spells := Spells.string (Quoted.of_text printable)
  have back : decodeLossy (text.toList.flatMap String.utf8EncodeChar) = text :=
    decodeLossy_encode text
  have own : (Token.Kind.string text).bytes =
      0x22 :: ((text.toList.flatMap Json.escape).flatMap String.utf8EncodeChar ++ [0x22]) := by
    rw [Token.Kind.bytes, Token.Kind.chars, Json.quoted, List.cons_append, List.flatMap_cons,
      List.flatMap_append]
    rfl
  rw [back, ← own] at spells
  exact spells

/-! ### Numbers -/

theorem Numeral.ofInt_chars (value : Int) :
    (Token.Kind.number (.ofInt value)).chars = Json.integerText value := by
  unfold ofInt
  split
  · rfl
  · rename_i positive
    rw [Token.Kind.chars, Int.toNat_of_nonneg (by omega)]

theorem Spells.integer_fits {own : Bytes} {kind : Token.Kind} {value : Int}
    (spells : Spells own kind) (same : kind.scalar? = some (.integer value)) :
    Numeral.Fits value := by
  cases spells with
  | mark lead =>
      cases kind with
      | number numeral => exact absurd lead (Lead.of_ne_number _ numeral)
      | _ => cases same
  | literal word => cases word <;> cases same
  | string _ => cases same
  | number _ _ read => exact Numeral.fits_of_ofBytes? read (Option.some.inj same)

/-! ### Tokens side by side -/

/-- The texts of some tokens, side by side, fall into these tokens again, wherever they stand. -/
def Rereads (kinds : List Token.Kind) : Prop :=
  ∀ place, ∃ tokens, Layout place (kinds.flatMap Token.Kind.bytes) tokens ∧
    tokens.map (·.kind) = kinds

namespace Rereads

variable {kind : Token.Kind} {kinds others : List Token.Kind}

theorem single (spells : Spells kind.bytes kind) : Rereads [kind] := by
  intro place
  rw [List.flatMap_singleton]
  exact ⟨_, .single spells place, rfl⟩

theorem append (front : Rereads kinds) (ends : EndsNumber (others.flatMap Token.Kind.bytes))
    (behind : Rereads others) : Rereads (kinds ++ others) := by
  intro place
  obtain ⟨own, layout, rfl⟩ := front place
  obtain ⟨more, further, rfl⟩ := behind (place + _)
  rw [List.flatMap_append]
  exact ⟨own ++ more, layout.append ends further, List.map_append⟩

theorem cons (spells : Spells kind.bytes kind) (noNumber : ∀ value, kind ≠ .number value)
    (behind : Rereads kinds) : Rereads (kind :: kinds) := by
  intro place
  obtain ⟨tokens, layout, rfl⟩ := behind (place + kind.bytes.length)
  exact ⟨_, .token spells (fun value same => absurd same (noNumber value)) layout, rfl⟩

end Rereads

end JsonProjection
