import JsonProjection.Json.StrictToken
import JsonProjection.Proofs.Json.Numbers
import JsonProjection.Proofs.Token.Layout

/-!
Bytes that both lexers take fall into the same tokens.

The lexer of documents drops what starts no token and lets a backslash stand for the byte behind it;
the scanner of standard JSON refuses the former and translates the latter. Where it refuses nothing,
no escape is to be translated, and the numbers agree, it finds the tokens of the layout.
-/

namespace JsonProjection

open Lexer Json

def Token.Kind.strict? : Token.Kind → Option StrictToken
  | .openObject => some .openObject
  | .closeObject => some .closeObject
  | .openArray => some .openArray
  | .closeArray => some .closeArray
  | .colon => some .colon
  | .comma => some .comma
  | .endOfInput => none
  | kind => kind.scalar?.map .scalar

def Token.Kind.strictAll (kinds : List Token.Kind) : List StrictToken :=
  kinds.filterMap Token.Kind.strict?

theorem Token.Kind.reverse_strictAll_cons (kind : Token.Kind) (rest : List Token.Kind) :
    (strictAll (kind :: rest)).reverse = (strictAll rest).reverse ++ strictAll [kind] := by
  unfold strictAll
  cases own : kind.strict? with
  | none => simp only [List.filterMap_cons_none own, List.filterMap_nil, List.append_nil]
  | some token => simp only [List.filterMap_cons_some own, List.filterMap_nil, List.reverse_cons]

/-- A backslash stands in front of a quote, a backslash or a slash only, so that the byte behind it
is the character meant. -/
def plainEscapes : Bytes → Bool
  | [] => true
  | [_] => true
  | byte :: escaped :: rest =>
    if byte = 0x5C then
      (escaped == 0x22 || escaped == 0x5C || escaped == 0x2F) && plainEscapes rest
    else plainEscapes (escaped :: rest)

theorem plainEscapes_cons {byte : UInt8} (noEscape : byte ≠ 0x5C) (rest : Bytes) :
    plainEscapes (byte :: rest) = plainEscapes rest := by
  cases rest with
  | nil => rfl
  | cons next others => rw [plainEscapes, if_neg noEscape]

theorem plainEscapes_escape (escaped : UInt8) (rest : Bytes) :
    plainEscapes (0x5C :: escaped :: rest) =
      ((escaped == 0x22 || escaped == 0x5C || escaped == 0x2F) && plainEscapes rest) := by
  rw [plainEscapes, if_pos rfl]

theorem plainEscapes_append {own : Bytes} (noEscape : ∀ byte ∈ own, byte ≠ 0x5C) (rest : Bytes) :
    plainEscapes (own ++ rest) = plainEscapes rest := by
  induction own with
  | nil => rfl
  | cons byte others ih =>
      rw [List.cons_append, plainEscapes_cons (noEscape byte List.mem_cons_self)]
      exact ih fun other member => noEscape other (List.mem_cons_of_mem byte member)

def numberTexts (bytes : Bytes) : List Bytes :=
  (Lexing.of bytes).tokens.filterMap fun token =>
    match token.kind with
    | .number _ => some (token.span.of bytes)
    | _ => none

theorem Text.Utf8.eq_of_mapM {pieces : List (Option Char)} {chars : List Char}
    (whole : pieces.mapM id = some chars) : pieces = chars.map some := by
  induction pieces generalizing chars with
  | nil =>
      rw [List.mapM_nil] at whole
      cases whole
      rfl
  | cons piece rest ih =>
      rw [List.mapM_cons] at whole
      obtain ⟨char, own, behind⟩ := Option.bind_eq_some_iff.mp whole
      obtain ⟨others, read, same⟩ := Option.bind_eq_some_iff.mp behind
      cases same
      rw [ih read, List.map_cons]
      exact congrArg (· :: _) own

theorem Text.Utf8.decodeLossy_eq {raw : Bytes} {text : String}
    (decoded : Text.Utf8.decode? raw = some text) : Text.Utf8.decodeLossy raw = text := by
  unfold decode? at decoded
  obtain ⟨chars, whole, rfl⟩ := Option.map_eq_some_iff.mp decoded
  unfold decodeLossy
  rw [eq_of_mapM whole, List.map_map]
  exact congrArg String.ofList (List.map_id chars)

namespace Json.StrictToken

/-! ### Scanning on -/

def scanOn (scanner : Scanner) (bytes : Bytes) : Option (List StrictToken) :=
  (scanFrom scanner bytes).bind Scanner.close?

theorem scanOn_cons (scanner : Scanner) (byte : UInt8) (rest : Bytes) :
    scanOn scanner (byte :: rest) = (scanner.push byte).bind fun next => scanOn next rest := by
  unfold scanOn
  rw [scanFrom]
  cases scanner.push byte <;> rfl

variable {latest result : List StrictToken} {seen own rest : Bytes} {byte : UInt8}

def lead? (latest : List StrictToken) : Lead → Option Scanner
  | .mark kind => kind.strict?.map fun token => ⟨.between, token :: latest⟩
  | .begin (.string _) _ => some ⟨.text [], latest⟩
  | .begin .number bytes => some ⟨.number bytes, latest⟩
  | .begin (.literal .true) _ => some ⟨.word (.bool true) [0x72, 0x75, 0x65], latest⟩
  | .begin (.literal .false) _ => some ⟨.word (.bool false) [0x61, 0x6C, 0x73, 0x65], latest⟩
  | .begin (.literal .null) _ => some ⟨.word .null [0x75, 0x6C, 0x6C], latest⟩
  | .ignored => none

theorem lead_of_space (space : isSpace byte = true) : Lead.of byte = .ignored := by
  unfold isSpace at space
  simp only [Bool.or_eq_true, beq_iff_eq] at space
  obtain ((rfl | rfl) | rfl) | rfl := space <;> rfl

theorem start_eq (latest : List StrictToken) (byte : UInt8) :
    Scanner.start latest byte =
      if isSpace byte then some ⟨.between, latest⟩ else lead? latest (Lead.of byte) := by
  unfold Scanner.start Lead.of
  simp only [apply_ite (lead? latest)]
  rfl

theorem start_begins (begins : Lead.of byte ≠ .ignored) :
    Scanner.start latest byte = lead? latest (Lead.of byte) := by
  rw [start_eq, if_neg]
  exact fun space => begins (lead_of_space space)

theorem start_ignored {next : Scanner} (ignored : Lead.of byte = .ignored)
    (started : Scanner.start latest byte = some next) : next = ⟨.between, latest⟩ := by
  rw [start_eq, ignored] at started
  split at started
  · exact (Option.some.inj started).symm
  · cases started

/-! ### Single tokens -/

theorem isNumberByte_eq (byte : UInt8) : isNumberByte byte = Lexer.isNumberByte byte := by
  unfold isNumberByte Lexer.isNumberByte
  rw [Bool.or_assoc _ (byte == 0x2B), Bool.or_comm (byte == 0x2B), ← Bool.or_assoc]

theorem scanOn_quoted {inner raw : Bytes} (quoted : Quoted inner raw)
    (plain : plainEscapes (inner ++ 0x22 :: rest) = true)
    (scanned : scanOn ⟨.text seen, latest⟩ (inner ++ 0x22 :: rest) = some result) :
    scanOn ⟨.between, .scalar (.string (Text.Utf8.decodeLossy (seen.reverse ++ raw))) :: latest⟩
        rest = some result ∧
      plainEscapes rest = true := by
  induction quoted generalizing seen with
  | nil =>
      rw [List.nil_append, plainEscapes_cons (by decide)] at plain
      rw [List.nil_append, scanOn_cons] at scanned
      obtain ⟨next, taken, behind⟩ := Option.bind_eq_some_iff.mp scanned
      obtain ⟨text, decoded, rfl⟩ := Option.map_eq_some_iff.mp taken
      rw [List.append_nil, Text.Utf8.decodeLossy_eq decoded]
      exact ⟨behind, plain⟩
  | @plain byte inner raw noQuote noEscape _ ih =>
      rw [List.cons_append, plainEscapes_cons noEscape] at plain
      rw [List.cons_append, scanOn_cons] at scanned
      obtain ⟨next, taken, behind⟩ := Option.bind_eq_some_iff.mp scanned
      simp only [Scanner.push, beq_false_of_ne noQuote, beq_false_of_ne noEscape,
        Bool.false_eq_true, if_false] at taken
      split at taken
      · cases taken
      · cases taken
        have own := ih plain behind
        rw [List.reverse_cons, List.append_assoc, List.singleton_append] at own
        exact own
  | @escaped byte inner raw _ ih =>
      rw [List.cons_append, List.cons_append, plainEscapes_escape, Bool.and_eq_true] at plain
      rw [List.cons_append, List.cons_append, scanOn_cons] at scanned
      obtain ⟨next, taken, behind⟩ := Option.bind_eq_some_iff.mp scanned
      cases taken
      rw [scanOn_cons] at behind
      obtain ⟨next, taken, further⟩ := Option.bind_eq_some_iff.mp behind
      simp only [Scanner.push, escapeState?, plain.1, if_true, Option.map_some] at taken
      cases taken
      have own := ih plain.2 further
      rw [List.reverse_cons, List.append_assoc, List.singleton_append] at own
      exact own

theorem scanOn_inside (inside : ∀ byte ∈ own, Lexer.isNumberByte byte = true) :
    scanOn ⟨.number seen, latest⟩ (own ++ rest) =
      scanOn ⟨.number (own.reverse ++ seen), latest⟩ rest := by
  induction own generalizing seen with
  | nil => rfl
  | cons byte others ih =>
      have number : isNumberByte byte = true :=
        isNumberByte_eq byte ▸ inside byte List.mem_cons_self
      rw [List.cons_append, scanOn_cons]
      simp only [Scanner.push, number, if_true, Option.bind_some]
      rw [ih fun other member => inside other (List.mem_cons_of_mem byte member), List.reverse_cons,
        List.append_assoc, List.singleton_append]

theorem scanOn_number_end (ends : EndsNumber rest)
    (scanned : scanOn ⟨.number seen, latest⟩ rest = some result) :
    ∃ value, StrictNumber.value? seen.reverse = some value ∧
      scanOn ⟨.between, .scalar value :: latest⟩ rest = some result := by
  cases rest with
  | nil =>
      obtain ⟨value, read, same⟩ := Option.map_eq_some_iff.mp scanned
      exact ⟨value, read, congrArg some same⟩
  | cons byte others =>
      have outside : isNumberByte byte = false := isNumberByte_eq byte ▸ ends byte rfl
      rw [scanOn_cons] at scanned
      simp only [Scanner.push, outside, Bool.false_eq_true, if_false] at scanned
      obtain ⟨next, taken, behind⟩ := Option.bind_eq_some_iff.mp scanned
      obtain ⟨tokens, closed, started⟩ := Option.bind_eq_some_iff.mp taken
      obtain ⟨value, read, rfl⟩ := Option.map_eq_some_iff.mp closed
      refine ⟨value, read, ?_⟩
      rw [scanOn_cons]
      exact Option.bind_eq_some_iff.mpr ⟨next, started, behind⟩

theorem scanOn_word (word : Literal) (rest : Bytes) :
    scanOn ⟨.between, latest⟩ (word.bytes ++ rest) =
      scanOn ⟨.between, Token.Kind.strictAll [word.kind] ++ latest⟩ rest := by
  cases word <;> rfl

end Json.StrictToken

open Json.StrictToken

/-! ### Whole texts -/

theorem Literal.noEscape (word : Literal) : ∀ byte ∈ word.bytes, byte ≠ 0x5C := by
  have all : word.bytes.all (· != 0x5C) := by cases word <;> rfl
  intro byte member
  exact bne_iff_ne.mp (List.all_eq_true.mp all byte member)

theorem Lexer.isNumberByte_noEscape {byte : UInt8} (number : isNumberByte byte = true) :
    byte ≠ 0x5C := by
  rintro rfl
  cases number

/-- The texts of numbers on which both lexers agree. -/
def Agrees (text : Bytes) : Prop :=
  text ≠ [0x2D, 0x30] ∧ sameDouble text = true

theorem Spells.scanOn {own rest : Bytes} {kind : Token.Kind} (spells : Spells own kind)
    (ends : ∀ value, kind = .number value → EndsNumber rest)
    (agrees : ∀ value, kind = .number value → Agrees own)
    (plain : plainEscapes (own ++ rest) = true) {latest result : List StrictToken}
    (scanned : StrictToken.scanOn ⟨.between, latest⟩ (own ++ rest) = some result) :
    StrictToken.scanOn ⟨.between, Token.Kind.strictAll [kind] ++ latest⟩ rest = some result ∧
      plainEscapes rest = true := by
  cases spells with
  | @mark byte _ lead =>
      have noEscape : byte ≠ 0x5C := by
        rintro rfl
        cases lead
      have begins : Lead.of byte ≠ .ignored := fun ignored => by cases lead.symm.trans ignored
      rw [List.singleton_append, plainEscapes_cons noEscape] at plain
      rw [List.singleton_append, scanOn_cons] at scanned
      obtain ⟨next, taken, behind⟩ := Option.bind_eq_some_iff.mp scanned
      rw [Scanner.push, start_begins begins, lead] at taken
      obtain ⟨token, own, rfl⟩ := Option.map_eq_some_iff.mp taken
      rw [Token.Kind.strictAll, List.filterMap_cons_some own]
      exact ⟨behind, plain⟩
  | literal word =>
      rw [scanOn_word] at scanned
      rw [plainEscapes_append word.noEscape] at plain
      exact ⟨scanned, plain⟩
  | @string inner raw quoted =>
      rw [List.cons_append, List.append_assoc, List.singleton_append] at plain scanned
      rw [plainEscapes_cons (by decide)] at plain
      rw [scanOn_cons] at scanned
      exact scanOn_quoted quoted plain scanned
  | @number first others value lead inside read =>
      have begins : Lead.of first ≠ .ignored := fun ignored => by cases lead.symm.trans ignored
      have noEscape : first ≠ 0x5C := by
        rintro rfl
        cases lead
      rw [List.cons_append, plainEscapes_cons noEscape,
        plainEscapes_append fun byte member => isNumberByte_noEscape (inside byte member)] at plain
      rw [List.cons_append, scanOn_cons] at scanned
      obtain ⟨next, taken, behind⟩ := Option.bind_eq_some_iff.mp scanned
      rw [Scanner.push, start_begins begins, lead] at taken
      cases taken
      -- The number ends where the layout says, and both lexers have read the same text by then.
      rw [scanOn_inside inside] at behind
      obtain ⟨strict, valued, further⟩ := scanOn_number_end (ends value rfl) behind
      rw [List.reverse_append, List.reverse_reverse, List.reverse_singleton,
        List.singleton_append] at valued
      obtain ⟨notZero, same⟩ := agrees value rfl
      rw [value?_ofBytes? valued read notZero same] at further
      exact ⟨further, plain⟩

theorem Layout.scanOn {place : Nat} {bytes : Bytes} {tokens : List Token}
    (layout : Layout place bytes tokens) {source : Bytes} (before : Bytes)
    (cut : source = before ++ bytes) (place_eq : place = before.length)
    (agrees : ∀ token ∈ tokens, ∀ value, token.kind = .number value → Agrees (token.span.of source))
    (plain : plainEscapes bytes = true) {latest result : List StrictToken}
    (scanned : StrictToken.scanOn ⟨.between, latest⟩ bytes = some result) :
    result = (Token.Kind.strictAll (tokens.map (·.kind))).reverse ++ latest := by
  induction layout generalizing before latest with
  | nil place => exact (Option.some.inj scanned).symm
  | @ignored place byte rest tokens lead _ ih =>
      rw [scanOn_cons] at scanned
      obtain ⟨next, taken, behind⟩ := Option.bind_eq_some_iff.mp scanned
      rw [Scanner.push] at taken
      -- A document may hold a stray backslash between two tokens, a standard text may not.
      have noEscape : byte ≠ 0x5C := by
        rintro rfl
        cases taken
      rw [start_ignored lead taken] at behind
      rw [plainEscapes_cons noEscape] at plain
      have further : source = (before ++ [byte]) ++ rest := by
        rw [cut, List.append_assoc, List.singleton_append]
      have next_eq : place + 1 = (before ++ [byte]).length := by
        rw [place_eq, List.length_append, List.length_singleton]
      exact ih _ further next_eq agrees plain behind
  | @token place own rest kind tokens spells ends _ ih =>
      have span : (⟨place, place + own.length⟩ : Span).of source = own := by
        rw [cut, place_eq, Span.of, Span.length, List.drop_left, Nat.add_sub_cancel_left,
          List.take_left]
      have numbers : ∀ value, kind = .number value → Agrees own := fun value same =>
        span ▸ agrees _ List.mem_cons_self value same
      obtain ⟨behind, plain⟩ := spells.scanOn ends numbers plain scanned
      have further : source = (before ++ own) ++ rest := by rw [cut, List.append_assoc]
      have next_eq : place + own.length = (before ++ own).length := by
        rw [place_eq, List.length_append]
      rw [ih _ further next_eq
        (fun token member => agrees token (List.mem_cons_of_mem _ member)) plain behind,
        List.map_cons, Token.Kind.reverse_strictAll_cons, List.append_assoc]

theorem Layout.strict {bytes : Bytes} {tokens : List Token} (layout : Layout 0 bytes tokens)
    (agrees : ∀ text ∈ numberTexts bytes, Agrees text) (plain : plainEscapes bytes = true)
    {result : List StrictToken} (scanned : StrictToken.ofBytes? bytes = some result) :
    result = Token.Kind.strictAll (tokens.map (·.kind)) := by
  have lexed : Lexing.of bytes = ⟨tokens, none⟩ := layout.readOn
  have own : ∀ token ∈ tokens, ∀ value, token.kind = .number value →
      Agrees (token.span.of bytes) := by
    intro token member value number
    apply agrees
    rw [numberTexts, lexed]
    exact List.mem_filterMap.mpr ⟨token, member, by rw [number]⟩
  obtain ⟨latest, found, rfl⟩ := Option.map_eq_some_iff.mp scanned
  rw [layout.scanOn [] rfl rfl own plain found, List.append_nil, List.reverse_reverse]

end JsonProjection
