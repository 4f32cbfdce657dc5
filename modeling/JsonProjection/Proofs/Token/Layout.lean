import JsonProjection.Proofs.Token.Cache

/-!
How bytes fall into tokens, said without a lexer.

A `Layout` reads the tokens off the bytes: every token is spelled where it stands, and a byte that
belongs to none of them starts none. A lexer finds just the tokens of a layout. So the bytes of
tokens that follow each other spell the same tokens wherever they stand.
-/

namespace JsonProjection

open Lexer

/-! ### Spellings -/

/-- What stands between the quotes of a string, and the bytes that count of it. -/
inductive Quoted : Bytes → Bytes → Prop where
  | nil : Quoted [] []
  | plain {byte : UInt8} {inner raw : Bytes} (noQuote : byte ≠ 0x22) (noEscape : byte ≠ 0x5C)
      (behind : Quoted inner raw) : Quoted (byte :: inner) (byte :: raw)
  | escaped (byte : UInt8) {inner raw : Bytes} (behind : Quoted inner raw) :
      Quoted (0x5C :: byte :: inner) (byte :: raw)

/-- The bytes that a token is spelled with. -/
inductive Spells : Bytes → Token.Kind → Prop where
  | mark {byte : UInt8} {kind : Token.Kind} (lead : Lead.of byte = .mark kind) :
      Spells [byte] kind
  | literal (word : Literal) : Spells word.bytes word.kind
  | string {inner raw : Bytes} (quoted : Quoted inner raw) :
      Spells (0x22 :: (inner ++ [0x22])) (.string (Text.Utf8.decodeLossy raw))
  | number {first : UInt8} {rest : Bytes} {value : Numeral}
      (lead : Lead.of first = .begin .number [first])
      (inside : ∀ byte ∈ rest, isNumberByte byte = true)
      (read : Numeral.ofBytes? (first :: rest) = some value) :
      Spells (first :: rest) (.number value)

def EndsNumber (behind : Bytes) : Prop :=
  ∀ byte ∈ behind.head?, isNumberByte byte = false

/-- The tokens that bytes from some place on fall into. -/
inductive Layout : Nat → Bytes → List Token → Prop where
  | nil (place : Nat) : Layout place [] []
  | ignored {place : Nat} {byte : UInt8} {rest : Bytes} {tokens : List Token}
      (lead : Lead.of byte = .ignored) (behind : Layout (place + 1) rest tokens) :
      Layout place (byte :: rest) tokens
  | token {place : Nat} {own rest : Bytes} {kind : Token.Kind} {tokens : List Token}
      (spells : Spells own kind) (ends : ∀ value, kind = .number value → EndsNumber rest)
      (behind : Layout (place + own.length) rest tokens) :
      Layout place (own ++ rest) (⟨kind, place, place + own.length⟩ :: tokens)

theorem endsNumber_nil : EndsNumber [] := by
  intro byte member
  cases member

theorem EndsNumber.append {rest behind : Bytes} (own : EndsNumber rest)
    (further : EndsNumber behind) : EndsNumber (rest ++ behind) := by
  cases rest with
  | nil => exact further
  | cons byte others => exact own

theorem Literal.bytes_ne_nil (word : Literal) : word.bytes ≠ [] := by
  cases word <;> exact List.cons_ne_nil _ _

theorem Spells.ne_nil {own : Bytes} {kind : Token.Kind} (spells : Spells own kind) : own ≠ [] := by
  cases spells with
  | literal word => exact word.bytes_ne_nil
  | _ => exact List.cons_ne_nil _ _

namespace Lexer

/-! ### Lexers without a cache -/

def idle (place : Nat) : Lexer :=
  ⟨place, none, .owned "", StringCache.new 0 0⟩

def under (place : Nat) (pending : Pending) : Lexer :=
  ⟨place, some pending, .owned "", StringCache.new 0 0⟩

variable {place start : Nat} {latest rest : Bytes} {byte : UInt8}

theorem readOn_slot (place : Nat) (slot : TextSlot) (rest : Bytes) :
    ({ idle place with slot } : Lexer).readOn rest = (idle place).readOn rest := by
  have faithful := StringCache.faithful_new 0 0
  have same : Same { idle place with slot } (idle place) := ⟨rfl, rfl, faithful, faithful⟩
  exact same.readOn rest

theorem takeByte_idle (place : Nat) (byte : UInt8) :
    (idle place).takeByte byte =
      match Lead.of byte with
      | .mark kind => ([⟨kind, place, place + 1⟩], .ok (idle (place + 1)))
      | .begin shape bytes => ([], .ok (under (place + 1) ⟨shape, place, bytes⟩))
      | .ignored => ([], .ok (idle (place + 1))) := by
  have stepped : (idle place).step byte = (Lead.of byte).take (idle place) :=
    startToken_eq (idle place) byte
  unfold takeByte
  rw [stepped]
  cases Lead.of byte <;> rfl

theorem takeByte_string (place start : Nat) (latest : Bytes) (byte : UInt8) :
    (under place ⟨.string false, start, latest⟩).takeByte byte =
      if byte = 0x22 then
        ([⟨.string (Text.Utf8.decodeLossy latest.reverse), start, place + 1⟩],
          .ok { idle (place + 1) with slot := .owned (Text.Utf8.decodeLossy latest.reverse) })
      else if byte = 0x5C then
        ([], .ok (under (place + 1) ⟨.string true, start, latest⟩))
      else ([], .ok (under (place + 1) ⟨.string false, start, byte :: latest⟩)) := by
  have decoded : (under place ⟨.string false, start, latest⟩).decodeString latest.reverse =
      { under place ⟨.string false, start, latest⟩ with
        slot := .owned ("" ++ Text.Utf8.decodeLossy latest.reverse) } := rfl
  rw [String.empty_append] at decoded
  unfold takeByte step
  by_cases quote : byte = 0x22
  · subst quote
    simp only [under] at decoded
    simp only [under, decoded]
    rfl
  · by_cases backslash : byte = 0x5C
    · subst backslash
      rfl
    · simp only [under, beq_false_of_ne quote, beq_false_of_ne backslash, if_neg quote,
        if_neg backslash, Bool.false_eq_true, if_false]
      rfl

theorem takeByte_escaped (place start : Nat) (latest : Bytes) (byte : UInt8) :
    (under place ⟨.string true, start, latest⟩).takeByte byte =
      ([], .ok (under (place + 1) ⟨.string false, start, byte :: latest⟩)) :=
  rfl

theorem takeByte_literal (place start : Nat) (word : Literal) (latest : Bytes) (byte : UInt8) :
    (under place ⟨.literal word, start, latest⟩).takeByte byte =
      if (byte :: latest).length < word.bytes.length then
        ([], .ok (under (place + 1) ⟨.literal word, start, byte :: latest⟩))
      else if (byte :: latest).reverse = word.bytes then
        ([⟨word.kind, start, place + 1⟩], .ok (idle (place + 1)))
      else ([], .error (.invalidLiteral word.spelling
        (Text.Utf8.decodeLossy (byte :: latest).reverse) start)) := by
  unfold takeByte step
  simp only [under, extend]
  by_cases short : (byte :: latest).length < word.bytes.length
  · simp only [if_pos short]
  · by_cases spelled : (byte :: latest).reverse = word.bytes
    · simp only [if_neg short, if_pos spelled]
      rfl
    · simp only [if_neg short, if_neg spelled]

theorem scan_number {lexer : Lexer} {digits : Bytes}
    (number : lexer.pending = some ⟨.number, start, latest⟩)
    (inside : ∀ byte ∈ digits, isNumberByte byte = true) :
    lexer.scan digits = ([], .ok { lexer with
      position := lexer.position + digits.length
      pending := some ⟨.number, start, digits.reverse ++ latest⟩ }) := by
  induction digits generalizing lexer latest with
  | nil =>
      obtain ⟨position, pending, slot, cache⟩ := lexer
      subst number
      rfl
  | cons byte rest ih =>
      have taken : lexer.takeByte byte = ([], .ok { lexer with
          position := lexer.position + 1
          pending := some ⟨.number, start, byte :: latest⟩ }) := by
        unfold takeByte step
        simp only [number, inside byte List.mem_cons_self, if_true]
        rfl
      have behind := fun other member => inside other (List.mem_cons_of_mem byte member)
      rw [scan_cons_ok taken, ih rfl behind, List.nil_append, List.length_cons,
        List.reverse_cons, List.append_assoc, List.singleton_append, Nat.add_assoc, Nat.add_comm 1]

theorem readOn_number_end {lexer : Lexer}
    (number : lexer.pending = some ⟨.number, start, latest⟩) (ends : EndsNumber rest) :
    lexer.readOn rest =
      match Numeral.ofBytes? latest.reverse with
      | some value =>
        ⟨⟨.number value, start, lexer.position⟩ ::
            (({ lexer with pending := none } : Lexer).readOn rest).tokens,
          (({ lexer with pending := none } : Lexer).readOn rest).error?⟩
      | none => ⟨[], some (.invalidNumber (Text.Utf8.decodeLossy latest.reverse) start)⟩ := by
  generalize idle : ({ lexer with pending := none } : Lexer) = next
  cases rest with
  | nil =>
      unfold readOn
      subst idle
      simp only [scan, flush, number, Pending.numeral]
      cases Numeral.ofBytes? latest.reverse <;> rfl
  | cons byte others =>
      have outside : isNumberByte byte = false := ends byte rfl
      have stepped : lexer.step byte =
          match Numeral.ofBytes? latest.reverse with
          | some value => (next, .precedes ⟨.number value, start, lexer.position⟩)
          | none => (lexer,
              .fails (.invalidNumber (Text.Utf8.decodeLossy latest.reverse) start)) := by
        unfold step
        subst idle
        simp only [number, outside, Bool.false_eq_true, if_false, Pending.numeral]
        cases Numeral.ofBytes? latest.reverse <;> rfl
      cases read : Numeral.ofBytes? latest.reverse with
      | none =>
          have failed : lexer.takeByte byte =
              ([], .error (.invalidNumber (Text.Utf8.decodeLossy latest.reverse) start)) := by
            unfold takeByte
            rw [stepped, read]
          rw [readOn, scan_cons_error failed]
      | some value =>
          -- The byte behind the number is taken as a lexer with nothing under way takes it.
          have taken : lexer.takeByte byte =
              (⟨.number value, start, lexer.position⟩ :: (next.takeByte byte).1,
                (next.takeByte byte).2) := by
            have started : next.startToken byte = (Lead.of byte).take next :=
              startToken_eq next byte
            have alike : next.step byte = next.startToken byte := by
              subst idle
              rfl
            unfold takeByte
            simp only [stepped, read, alike, started]
            cases Lead.of byte <;> rfl
          rcases own : next.takeByte byte with ⟨tokens, error | last⟩
          · rw [own] at taken
            simp only [readOn, scan_cons_error taken, scan_cons_error own]
          · rw [own] at taken
            simp only [readOn, scan_cons_ok taken, scan_cons_ok own]
            rcases last.scan others with ⟨more, error | final⟩ <;> rfl

theorem readOn_cons_ok {lexer next : Lexer} {tokens : List Token}
    (taken : lexer.takeByte byte = (tokens, .ok next)) (rest : Bytes) :
    lexer.readOn (byte :: rest) =
      ⟨tokens ++ (next.readOn rest).tokens, (next.readOn rest).error?⟩ := by
  have scanned : lexer.scan [byte] = (tokens, .ok next) := by
    rw [scan_cons_ok taken, scan, List.append_nil]
  exact readOn_append_ok scanned rest

theorem readOn_cons_error {lexer : Lexer} {tokens : List Token} {error : LexError}
    (taken : lexer.takeByte byte = (tokens, .error error)) (rest : Bytes) :
    lexer.readOn (byte :: rest) = ⟨tokens, some error⟩ := by
  rw [readOn, scan_cons_error taken]

theorem readOn_number {lexer : Lexer} (idle : lexer.pending = none) {first : UInt8}
    {digits : Bytes} (lead : Lead.of first = .begin .number [first])
    (inside : ∀ byte ∈ digits, isNumberByte byte = true) (ends : EndsNumber rest) :
    let next : Lexer := { lexer with position := lexer.position + (first :: digits).length }
    lexer.readOn ((first :: digits) ++ rest) =
      match Numeral.ofBytes? (first :: digits) with
      | some value =>
        ⟨⟨.number value, lexer.position, next.position⟩ :: (next.readOn rest).tokens,
          (next.readOn rest).error?⟩
      | none =>
        ⟨[], some (.invalidNumber (Text.Utf8.decodeLossy (first :: digits)) lexer.position)⟩ := by
  obtain ⟨position, pending, slot, cache⟩ := lexer
  subst idle
  have taken : (⟨position, none, slot, cache⟩ : Lexer).takeByte first =
      ([], .ok ⟨position + 1, some ⟨.number, position, [first]⟩, slot, cache⟩) := by
    have started := startToken_eq ⟨position, none, slot, cache⟩ first
    have alike : (⟨position, none, slot, cache⟩ : Lexer).step first =
        (⟨position, none, slot, cache⟩ : Lexer).startToken first := rfl
    unfold takeByte
    rw [alike, started, lead]
    rfl
  have number : (⟨position + 1, some ⟨.number, position, [first]⟩, slot, cache⟩ : Lexer).pending =
      some ⟨.number, position, [first]⟩ := rfl
  have scanned := scan_number number inside
  rw [List.cons_append, readOn_cons_ok taken, readOn_append_ok scanned, readOn_number_end rfl ends]
  simp only [List.reverse_append, List.reverse_reverse, List.reverse_singleton,
    List.singleton_append, List.nil_append, List.length_cons, Nat.add_assoc, Nat.add_comm 1]

/-! ### Tokens under way -/

theorem readOn_quoted {inner raw : Bytes} (quoted : Quoted inner raw) (place start : Nat)
    (latest rest : Bytes) :
    (under place ⟨.string false, start, latest⟩).readOn (inner ++ 0x22 :: rest) =
      ⟨⟨.string (Text.Utf8.decodeLossy (latest.reverse ++ raw)), start,
          place + inner.length + 1⟩ :: ((idle (place + inner.length + 1)).readOn rest).tokens,
        ((idle (place + inner.length + 1)).readOn rest).error?⟩ := by
  induction quoted generalizing place latest with
  | nil =>
      have taken := takeByte_string place start latest 0x22
      rw [if_pos rfl] at taken
      rw [List.nil_append, readOn_cons_ok taken, List.append_nil, readOn_slot]
      rfl
  | @plain byte inner raw noQuote noEscape _ ih =>
      have taken := takeByte_string place start latest byte
      rw [if_neg noQuote, if_neg noEscape] at taken
      rw [List.cons_append, readOn_cons_ok taken, ih, List.reverse_cons, List.append_assoc,
        List.length_cons, Nat.add_assoc place, Nat.add_comm 1]
      rfl
  | @escaped byte inner raw _ ih =>
      have taken := takeByte_string place start latest 0x5C
      rw [if_neg (by decide), if_pos rfl] at taken
      have place' : place + 1 + 1 + inner.length = place + (0x5C :: byte :: inner).length := by
        rw [List.length_cons, List.length_cons]
        omega
      rw [List.cons_append, List.cons_append, readOn_cons_ok taken,
        readOn_cons_ok (takeByte_escaped (place + 1) start latest byte), ih, List.reverse_cons,
        List.append_assoc, place']
      rfl

theorem quoted_of_readOn {place start : Nat} {escaped : Bool} {latest bytes : Bytes}
    {tokens : List Token}
    (read : (under place ⟨.string escaped, start, latest⟩).readOn bytes = ⟨tokens, none⟩) :
    ∃ inner raw rest, bytes = inner ++ 0x22 :: rest ∧
      Quoted ((if escaped then [0x5C] else []) ++ inner) raw := by
  induction bytes generalizing place escaped latest tokens with
  | nil => cases read
  | cons byte others ih =>
      cases escaped with
      | true =>
          rw [readOn_cons_ok (takeByte_escaped place start latest byte)] at read
          obtain ⟨inner, raw, rest, rfl, quoted⟩ := ih (by
            rw [List.nil_append] at read
            exact read)
          exact ⟨byte :: inner, byte :: raw, rest, rfl, .escaped byte quoted⟩
      | false =>
          have taken := takeByte_string place start latest byte
          by_cases quote : byte = 0x22
          · subst quote
            exact ⟨[], [], others, rfl, .nil⟩
          · rw [if_neg quote] at taken
            by_cases backslash : byte = 0x5C
            · subst backslash
              rw [if_pos rfl] at taken
              rw [readOn_cons_ok taken] at read
              obtain ⟨inner, raw, rest, rfl, quoted⟩ := ih (by
                rw [List.nil_append] at read
                exact read)
              exact ⟨0x5C :: inner, raw, rest, rfl, quoted⟩
            · rw [if_neg backslash] at taken
              rw [readOn_cons_ok taken] at read
              obtain ⟨inner, raw, rest, rfl, quoted⟩ := ih (by
                rw [List.nil_append] at read
                exact read)
              exact ⟨byte :: inner, byte :: raw, rest, rfl, .plain quote backslash quoted⟩

theorem readOn_word {word : Literal} {own latest : Bytes}
    (spelled : latest.reverse ++ own = word.bytes) (some : own ≠ []) (place start : Nat)
    (rest : Bytes) :
    (under place ⟨.literal word, start, latest⟩).readOn (own ++ rest) =
      ⟨⟨word.kind, start, place + own.length⟩ :: ((idle (place + own.length)).readOn rest).tokens,
        ((idle (place + own.length)).readOn rest).error?⟩ := by
  induction own generalizing place latest with
  | nil => exact absurd rfl some
  | cons byte others ih =>
      have spelled' : (byte :: latest).reverse ++ others = word.bytes := by
        rw [List.reverse_cons, List.append_assoc, List.singleton_append, spelled]
      have taken := takeByte_literal place start word latest byte
      have length : (byte :: latest).length + others.length = word.bytes.length := by
        rw [← spelled', List.length_append, List.length_reverse]
      cases others with
      | nil =>
          rw [List.append_nil] at spelled'
          rw [List.length_nil] at length
          rw [if_neg (by omega), if_pos spelled'] at taken
          rw [List.singleton_append, readOn_cons_ok taken]
          rfl
      | cons next more =>
          rw [List.length_cons (a := next)] at length
          rw [if_pos (by omega)] at taken
          rw [List.cons_append, readOn_cons_ok taken, ih spelled' (List.cons_ne_nil _ _),
            List.nil_append, List.length_cons (a := byte), Nat.add_assoc place, Nat.add_comm 1]

theorem word_of_readOn {place start : Nat} {word : Literal} {latest bytes : Bytes}
    {tokens : List Token}
    (read : (under place ⟨.literal word, start, latest⟩).readOn bytes = ⟨tokens, none⟩) :
    ∃ own rest, bytes = own ++ rest ∧ latest.reverse ++ own = word.bytes ∧ own ≠ [] := by
  induction bytes generalizing place latest tokens with
  | nil => cases read
  | cons byte others ih =>
      have taken := takeByte_literal place start word latest byte
      by_cases short : (byte :: latest).length < word.bytes.length
      · rw [if_pos short] at taken
        rw [readOn_cons_ok taken, List.nil_append] at read
        obtain ⟨own, rest, rfl, spelled, _⟩ := ih read
        refine ⟨byte :: own, rest, rfl, ?_, List.cons_ne_nil _ _⟩
        rw [← spelled, List.reverse_cons, List.append_assoc, List.singleton_append]
      · rw [if_neg short] at taken
        by_cases spelled : (byte :: latest).reverse = word.bytes
        · refine ⟨[byte], others, rfl, ?_, List.cons_ne_nil _ _⟩
          rw [← List.reverse_cons]
          exact spelled
        · rw [if_neg spelled] at taken
          rw [readOn_cons_error taken] at read
          cases read

end Lexer

/-! ### Layouts and lexers -/

theorem endsNumber_dropWhile (bytes : Bytes) : EndsNumber (bytes.dropWhile isNumberByte) := by
  intro byte member
  have stopped := List.head?_dropWhile_not isNumberByte bytes
  rw [Option.mem_def.mp member] at stopped
  simpa using stopped

theorem Lexer.Lead.of_begin {byte : UInt8} {shape : Shape} {bytes : Bytes}
    (lead : Lead.of byte = .begin shape bytes) :
    (byte = 0x22 ∧ shape = .string false ∧ bytes = []) ∨
      (∃ word : Literal, shape = .literal word ∧ bytes = [byte]) ∨
      (shape = .number ∧ bytes = [byte]) := by
  revert lead
  fun_cases Lead.of byte with
  | case7 _ _ _ _ _ _ quote =>
      intro lead
      cases lead
      exact Or.inl ⟨beq_iff_eq.mp quote, rfl, rfl⟩
  | case8 | case9 | case10 =>
      intro lead
      cases lead
      exact Or.inr (Or.inl ⟨_, rfl, rfl⟩)
  | case11 =>
      intro lead
      cases lead
      exact Or.inr (Or.inr ⟨rfl, rfl⟩)
  | _ =>
      intro lead
      cases lead

theorem Lexer.Lead.of_ne_number (byte : UInt8) (value : Numeral) :
    Lead.of byte ≠ .mark (.number value) := by
  intro lead
  cases Lead.scalar?_of_mark lead

theorem Spells.readOn {own rest : Bytes} {kind : Token.Kind} (spells : Spells own kind)
    (ends : ∀ value, kind = .number value → EndsNumber rest) (place : Nat) :
    (idle place).readOn (own ++ rest) =
      ⟨⟨kind, place, place + own.length⟩ :: ((idle (place + own.length)).readOn rest).tokens,
        ((idle (place + own.length)).readOn rest).error?⟩ := by
  cases spells with
  | @mark byte kind lead =>
      have taken := takeByte_idle place byte
      rw [lead] at taken
      rw [List.singleton_append, readOn_cons_ok taken]
      rfl
  | literal word =>
      obtain ⟨first, others, split, lead, more⟩ : ∃ first others, word.bytes = first :: others ∧
          Lead.of first = .begin (.literal word) [first] ∧ others ≠ [] := by
        cases word <;> exact ⟨_, _, rfl, rfl, List.cons_ne_nil _ _⟩
      have taken := takeByte_idle place first
      rw [lead] at taken
      have spelled : [first].reverse ++ others = word.bytes := split.symm
      rw [split, List.cons_append, readOn_cons_ok taken, readOn_word spelled more,
        List.nil_append, List.length_cons, Nat.add_assoc place, Nat.add_comm 1]
  | @string inner raw quoted =>
      have taken := takeByte_idle place 0x22
      rw [show Lead.of 0x22 = .begin (.string false) [] from rfl] at taken
      have place' : place + 1 + inner.length + 1 = place + (0x22 :: (inner ++ [0x22])).length := by
        rw [List.length_cons, List.length_append, List.length_singleton]
        omega
      rw [List.cons_append, List.append_assoc, List.singleton_append, readOn_cons_ok taken,
        readOn_quoted quoted, place']
      rfl
  | @number first digits value lead inside given =>
      have noToken : (idle place).pending = none := rfl
      have read := readOn_number noToken lead inside (ends value rfl)
      rw [given] at read
      exact read

theorem Layout.readOn {place : Nat} {bytes : Bytes} {tokens : List Token}
    (layout : Layout place bytes tokens) : (idle place).readOn bytes = ⟨tokens, none⟩ := by
  induction layout with
  | nil place => rfl
  | @ignored place byte rest tokens lead _ ih =>
      have taken := takeByte_idle place byte
      rw [lead] at taken
      rw [readOn_cons_ok taken, ih]
      rfl
  | token spells ends _ ih => rw [spells.readOn ends, ih]

theorem Spells.of_readOn {place : Nat} {byte : UInt8} {others : Bytes} {tokens : List Token}
    (read : (idle place).readOn (byte :: others) = ⟨tokens, none⟩) :
    Lead.of byte = .ignored ∨ ∃ own rest kind, byte :: others = own ++ rest ∧ Spells own kind ∧
      ∀ value, kind = .number value → EndsNumber rest := by
  have taken := takeByte_idle place byte
  cases lead : Lead.of byte with
  | ignored => exact Or.inl rfl
  | mark kind =>
      refine Or.inr ⟨[byte], others, kind, rfl, .mark lead, ?_⟩
      rintro value rfl
      exact absurd lead (Lead.of_ne_number byte value)
  | begin shape bytes =>
      refine Or.inr ?_
      rcases Lead.of_begin lead with ⟨rfl, rfl, rfl⟩ | ⟨word, rfl, rfl⟩ | ⟨rfl, rfl⟩
      · rw [lead] at taken
        rw [readOn_cons_ok taken, List.nil_append] at read
        obtain ⟨inner, raw, rest, rfl, quoted⟩ := quoted_of_readOn read
        refine ⟨0x22 :: (inner ++ [0x22]), rest, _, ?_, .string quoted,
          fun value other => by cases other⟩
        rw [List.cons_append, List.append_assoc, List.singleton_append]
      · rw [lead] at taken
        rw [readOn_cons_ok taken, List.nil_append] at read
        obtain ⟨own, rest, rfl, spelled, _⟩ := word_of_readOn read
        refine ⟨word.bytes, rest, word.kind, ?_, .literal word, ?_⟩
        · rw [← spelled]
          rfl
        · intro value other
          cases word <;> cases other
      · -- The number goes on as long as number bytes follow.
        have split := List.takeWhile_append_dropWhile (p := isNumberByte) (l := others)
        have inside : ∀ own ∈ others.takeWhile isNumberByte, isNumberByte own = true :=
          List.all_eq_true.mp List.all_takeWhile
        have ends := endsNumber_dropWhile others
        have noToken : (idle place).pending = none := rfl
        have number := readOn_number noToken lead inside ends
        rw [List.cons_append, split] at number
        rw [number] at read
        cases value : Numeral.ofBytes? (byte :: others.takeWhile isNumberByte) with
        | none =>
            rw [value] at read
            cases read
        | some number =>
            refine ⟨byte :: others.takeWhile isNumberByte, others.dropWhile isNumberByte,
              .number number, ?_, .number lead inside value, fun _ _ => ends⟩
            rw [List.cons_append, split]

theorem layout_of_readOn {place : Nat} {bytes : Bytes} {tokens : List Token}
    (read : (idle place).readOn bytes = ⟨tokens, none⟩) : Layout place bytes tokens := by
  -- Each step takes a byte at least.
  induction length : bytes.length using Nat.strongRecOn generalizing place bytes tokens with
  | ind bound ih =>
      cases bytes with
      | nil =>
          cases read
          exact .nil place
      | cons byte others =>
          rcases Spells.of_readOn read with lead | ⟨own, rest, kind, split, spells, ends⟩
          · have taken := takeByte_idle place byte
            rw [lead] at taken
            rw [readOn_cons_ok taken, List.nil_append] at read
            have shorter : others.length < bound := by
              rw [← length]
              exact Nat.lt_succ_self _
            exact .ignored lead (ih others.length shorter read rfl)
          · have shorter : rest.length < bound := by
              have some := List.length_pos_iff.mpr spells.ne_nil
              have whole := congrArg List.length split
              rw [List.length_append] at whole
              omega
            rw [split] at read ⊢
            rw [spells.readOn ends] at read
            rcases behind : (idle (place + own.length)).readOn rest with ⟨more, error?⟩
            rw [behind] at read
            cases read
            exact .token spells ends (ih rest.length shorter behind rfl)

/-- A lexer finds just the tokens of a layout. -/
theorem readOn_iff_layout {place : Nat} {bytes : Bytes} {tokens : List Token} :
    (idle place).readOn bytes = ⟨tokens, none⟩ ↔ Layout place bytes tokens :=
  ⟨layout_of_readOn, Layout.readOn⟩

namespace Layout

/-! ### Layouts in parts -/

theorem single {own : Bytes} {kind : Token.Kind} (spells : Spells own kind) (place : Nat) :
    Layout place own [⟨kind, place, place + own.length⟩] := by
  have layout : Layout place (own ++ []) [⟨kind, place, place + own.length⟩] :=
    .token spells (fun _ _ => endsNumber_nil) (.nil _)
  rw [List.append_nil] at layout
  exact layout

theorem move {place : Nat} {bytes : Bytes} {tokens : List Token}
    (layout : Layout place bytes tokens) (other : Nat) :
    ∃ others, Layout other bytes others ∧ others.map (·.kind) = tokens.map (·.kind) := by
  induction layout generalizing other with
  | nil place => exact ⟨[], .nil other, rfl⟩
  | ignored lead _ ih =>
      obtain ⟨others, behind, kinds⟩ := ih (other + 1)
      exact ⟨others, .ignored lead behind, kinds⟩
  | @token place own rest kind tokens spells ends _ ih =>
      obtain ⟨others, behind, kinds⟩ := ih (other + own.length)
      refine ⟨_, .token spells ends behind, ?_⟩
      rw [List.map_cons, List.map_cons, kinds]

theorem append {place : Nat} {first second : Bytes} {tokens others : List Token}
    (layout : Layout place first tokens) (ends : EndsNumber second)
    (behind : Layout (place + first.length) second others) :
    Layout place (first ++ second) (tokens ++ others) := by
  induction layout with
  | nil place => exact behind
  | ignored lead _ ih =>
      rw [List.length_cons, ← Nat.add_assoc, Nat.add_right_comm] at behind
      exact .ignored lead (ih behind)
  | token spells endsOwn _ ih =>
      rw [List.length_append, ← Nat.add_assoc] at behind
      rw [List.append_assoc]
      exact .token spells (fun value same => (endsOwn value same).append ends) (ih behind)

theorem rest {place : Nat} {bytes : Bytes} {front back : List Token} {token : Token}
    (layout : Layout place bytes (front ++ token :: back)) :
    ∃ before after, bytes = before ++ after ∧ token.span.start = place + before.length ∧
      Layout (place + before.length) after (token :: back) := by
  generalize split : front ++ token :: back = tokens at layout
  induction layout generalizing front with
  | nil place => exact absurd split (List.append_ne_nil_of_right_ne_nil _ (List.cons_ne_nil _ _))
  | @ignored place byte others tokens lead _ ih =>
      obtain ⟨before, after, rfl, start, behind⟩ := ih split
      rw [Nat.add_assoc, Nat.add_comm 1] at start behind
      exact ⟨byte :: before, after, rfl, start, behind⟩
  | @token place own others kind tokens spells ends behind ih =>
      cases front with
      | nil =>
          obtain ⟨rfl, rfl⟩ := List.cons.inj split
          exact ⟨[], own ++ others, rfl, rfl, .token spells ends behind⟩
      | cons first more =>
          obtain ⟨before, after, rfl, start, further⟩ := ih (List.cons.inj split).2
          refine ⟨own ++ before, after, (List.append_assoc _ _ _).symm, ?_⟩
          rw [List.length_append, ← Nat.add_assoc]
          exact ⟨start, further⟩

theorem upTo {place : Nat} {bytes : Bytes} {own back : List Token} {last : Token}
    (layout : Layout place bytes (own ++ last :: back)) :
    ∃ middle after, bytes = middle ++ after ∧ Layout place middle (own ++ [last]) ∧
      last.span.stop = place + middle.length := by
  generalize split : own ++ last :: back = tokens at layout
  induction layout generalizing own with
  | nil place => exact absurd split (List.append_ne_nil_of_right_ne_nil _ (List.cons_ne_nil _ _))
  | @ignored place byte others tokens lead _ ih =>
      obtain ⟨middle, after, rfl, front, stop⟩ := ih split
      refine ⟨byte :: middle, after, rfl, .ignored lead front, ?_⟩
      rw [stop, List.length_cons]
      omega
  | @token place bytes others kind tokens spells ends behind ih =>
      cases own with
      | nil =>
          obtain ⟨rfl, rfl⟩ := List.cons.inj split
          exact ⟨bytes, others, rfl, .single spells place, rfl⟩
      | cons first more =>
          obtain ⟨rfl, further⟩ := List.cons.inj split
          obtain ⟨middle, after, rfl, front, stop⟩ := ih further
          refine ⟨bytes ++ middle, after, (List.append_assoc _ _ _).symm, ?_, ?_⟩
          · refine .token spells (fun value same => ?_) front
            -- A token follows, so the byte behind the number is among these.
            cases middle with
            | nil => exact endsNumber_nil
            | cons byte rest => exact ends value same
          · rw [stop, List.length_append]
            omega

/-- The bytes from the first to the last of some tokens spell just these. -/
theorem cover {source : Bytes} {front own back : List Token} (some : own ≠ [])
    (layout : Layout 0 source (front ++ (own ++ back))) :
    Layout (Token.cover own).start ((Token.cover own).of source) own := by
  obtain ⟨first, others, own_eq⟩ := List.exists_cons_of_ne_nil some
  have final := List.getLast?_eq_some_getLast some
  have split : own.dropLast ++ [own.getLast some] = own := List.dropLast_concat_getLast some
  rw [own_eq, List.cons_append] at layout
  obtain ⟨before, after, rfl, start, behind⟩ := layout.rest
  rw [← List.cons_append, ← own_eq, ← split, List.append_assoc, List.singleton_append] at behind
  obtain ⟨middle, more, rfl, inner, stop⟩ := behind.upTo
  have head : own.head? = Option.some first := by
    rw [own_eq]
    rfl
  rw [split] at inner
  rw [Token.cover_of_ends head final, start, stop, Span.of, Span.length, Nat.zero_add,
    List.drop_left, Nat.add_sub_cancel_left, List.take_left]
  rw [Nat.zero_add] at inner
  exact inner

end Layout

end JsonProjection
