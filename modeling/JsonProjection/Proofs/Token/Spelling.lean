import JsonProjection.Proofs.Token.Cache
import JsonProjection.Proofs.Token.Printed

/-!
The tokens of a document and the bytes of their spans.

What a lexer hands out up to the end of a document is held against the document alone: a span shows
the whole spelling of its token and no more of the bytes around it, no token can start in the bytes
between the spans, and the bytes of one span lexed alone are the same token again. None of it
depends on the chunks of the document or on what the lexer was used for before.
-/

namespace JsonProjection

open Lexer

/-! ### Spellings -/

def unescaped : Bytes → Bytes
  | [] => []
  | [byte] => [byte]
  | first :: second :: rest =>
    if first = 0x5C then second :: unescaped rest else first :: unescaped (second :: rest)

/-- An odd number of backslashes at the end, so that the last one escapes the byte behind. -/
def Unpaired (front : Bytes) : Prop :=
  (front.reverse.takeWhile (· == 0x5C)).length % 2 = 1

namespace Token

def starters : Bytes :=
  [0x7B, 0x7D, 0x5B, 0x5D, 0x3A, 0x2C, 0x22, 0x2D, 0x74, 0x66, 0x6E,
    0x30, 0x31, 0x32, 0x33, 0x34, 0x35, 0x36, 0x37, 0x38, 0x39]

/-- The span of a token covers its spelling in a source. A string ends at the first quote that is
not escaped, a number goes on as far as number bytes do, and any other token is spelled in one way
only. -/
def Spelled (source : Bytes) (token : Token) : Prop :=
  let own := token.span.of source
  match token.kind with
  | .string text =>
    ∃ inner, own = 0x22 :: (inner ++ [0x22]) ∧
      (∀ front, front ++ [0x22] <+: inner → Unpaired front) ∧ ¬ Unpaired inner ∧
      text = Text.Utf8.decodeLossy (unescaped inner)
  | .number value =>
    ∃ first rest, own = first :: rest ∧ (Decimal.isDigit first = true ∨ first = 0x2D) ∧
      (∀ byte ∈ rest, isNumberByte byte = true) ∧
      (∀ byte, source[token.span.stop]? = some byte → isNumberByte byte = false) ∧
      Numeral.ofBytes? own = some value
  | kind => own = kind.bytes

end Token

/-! ### Strings -/

variable {inner raw front : Bytes} {byte : UInt8}

theorem Quoted.unescaped_eq (quoted : Quoted inner raw) : unescaped inner = raw := by
  induction quoted with
  | nil => rfl
  | @plain byte inner raw noQuote noEscape _ ih =>
      rw [← ih]
      cases inner with
      | nil => rfl
      | cons next rest => rw [unescaped, if_neg noEscape]
  | escaped byte _ ih => rw [unescaped, if_pos rfl, ih]

theorem not_unpaired_nil : ¬ Unpaired [] := by
  unfold Unpaired
  decide

theorem unpaired_cons (noEscape : byte ≠ 0x5C) : Unpaired (byte :: front) ↔ Unpaired front := by
  unfold Unpaired
  have other : [byte].takeWhile (· == 0x5C) = [] := by
    rw [List.takeWhile_cons, beq_false_of_ne noEscape, if_neg Bool.false_ne_true]
  rw [List.reverse_cons, List.takeWhile_append, other, List.append_nil]
  split
  · rename_i all
    rw [(List.takeWhile_prefix _).eq_of_length all]
  · rfl

theorem unpaired_escaped (byte : UInt8) (front : Bytes) :
    Unpaired (0x5C :: byte :: front) ↔ Unpaired front := by
  unfold Unpaired
  rw [List.reverse_cons, List.reverse_cons, List.append_assoc, List.singleton_append,
    List.takeWhile_append]
  split
  · -- All of the bytes are backslashes, and two more of them change nothing.
    rename_i all
    have pair : ([byte, 0x5C].takeWhile (· == 0x5C)).length % 2 = 0 := by
      by_cases escape : byte = 0x5C
      · subst escape
        rfl
      · rw [List.takeWhile_cons, beq_false_of_ne escape, if_neg Bool.false_ne_true]
        rfl
    rw [List.length_append, all]
    omega
  · rfl

theorem Quoted.not_unpaired (quoted : Quoted inner raw) : ¬ Unpaired inner := by
  induction quoted with
  | nil => exact not_unpaired_nil
  | plain _ noEscape _ ih => exact fun odd => ih ((unpaired_cons noEscape).mp odd)
  | escaped byte _ ih => exact fun odd => ih ((unpaired_escaped byte _).mp odd)

theorem Quoted.unpaired (quoted : Quoted inner raw) (inside : front ++ [0x22] <+: inner) :
    Unpaired front := by
  induction quoted generalizing front with
  | nil => exact absurd (List.prefix_nil.mp inside) (List.append_ne_nil_of_right_ne_nil _ (by simp))
  | plain noQuote noEscape _ ih =>
      cases front with
      | nil => exact absurd (List.cons_prefix_cons.mp inside).1.symm noQuote
      | cons first others =>
          obtain ⟨rfl, behind⟩ := List.cons_prefix_cons.mp inside
          exact (unpaired_cons noEscape).mpr (ih behind)
  | escaped byte _ ih =>
      cases front with
      | nil => exact absurd (List.cons_prefix_cons.mp inside).1 (by decide)
      | cons first others =>
          obtain ⟨rfl, behind⟩ := List.cons_prefix_cons.mp inside
          cases others with
          | nil =>
              unfold Unpaired
              decide
          | cons second more =>
              obtain ⟨rfl, further⟩ := List.cons_prefix_cons.mp behind
              exact (unpaired_escaped second more).mpr (ih further)

/-! ### First bytes -/

theorem Lexer.Lead.of_mark {kind : Token.Kind} (lead : Lead.of byte = .mark kind) :
    kind.scalar? = none ∧ [byte] = kind.bytes := by
  revert lead
  fun_cases Lead.of byte with
  | case1 same | case2 _ same | case3 _ _ same | case4 _ _ _ same | case5 _ _ _ _ same
  | case6 _ _ _ _ _ same =>
      intro lead
      cases lead
      rw [beq_iff_eq.mp same]
      exact ⟨rfl, rfl⟩
  | _ =>
      intro lead
      cases lead

theorem Lexer.Lead.digit_or_minus (lead : Lead.of byte = .begin .number [byte]) :
    Decimal.isDigit byte = true ∨ byte = 0x2D := by
  revert lead
  fun_cases Lead.of byte with
  | case11 _ _ _ _ _ _ _ _ _ _ starts =>
      intro _
      rcases Bool.or_eq_true_iff.mp starts with digit | minus
      · exact Or.inl digit
      · exact Or.inr (beq_iff_eq.mp minus)
  | _ =>
      intro lead
      cases lead

theorem Lexer.Lead.not_mem_starters (lead : Lead.of byte = .ignored) : byte ∉ Token.starters := by
  have start : ∀ byte ∈ Token.starters, Lead.of byte ≠ .ignored := by decide +kernel
  exact fun member => start byte member lead

/-! ### Spans -/

theorem Span.of_middle (before own after : Bytes) :
    Span.of ⟨before.length, before.length + own.length⟩ (before ++ (own ++ after)) = own := by
  unfold Span.of Span.length
  rw [List.drop_left, Nat.add_sub_cancel_left, List.take_left]

theorem Spells.spelled {own : Bytes} {kind : Token.Kind} (spells : Spells own kind)
    (before : Bytes) {after : Bytes} (ends : ∀ value, kind = .number value → EndsNumber after) :
    Token.Spelled (before ++ (own ++ after))
      ⟨kind, before.length, before.length + own.length⟩ := by
  unfold Token.Spelled
  simp only [Span.of_middle]
  cases spells with
  | @mark byte kind lead =>
      obtain ⟨noScalar, whole⟩ := Lead.of_mark lead
      cases kind with
      | string text => cases noScalar
      | number value => cases noScalar
      | _ => exact whole
  | literal word => cases word <;> rfl
  | @string inner raw quoted =>
      refine ⟨inner, rfl, fun front inside => quoted.unpaired inside, quoted.not_unpaired, ?_⟩
      rw [quoted.unescaped_eq]
  | @number first rest value lead inside read =>
      refine ⟨first, rest, rfl, Lead.digit_or_minus lead, inside, fun byte here => ?_, read⟩
      rw [← List.append_assoc, ← List.length_append, List.getElem?_append_right (Nat.le_refl _),
        Nat.sub_self, ← List.head?_eq_getElem?] at here
      exact ends value rfl byte here

namespace Layout

variable {place : Nat} {bytes : Bytes} {tokens : List Token}

theorem mem (layout : Layout place bytes tokens) {token : Token} (member : token ∈ tokens) :
    ∃ before own after, bytes = before ++ (own ++ after) ∧
      token.span = ⟨place + before.length, place + before.length + own.length⟩ ∧
      Spells own token.kind ∧ ∀ value, token.kind = .number value → EndsNumber after := by
  induction layout with
  | nil place => cases member
  | @ignored place byte rest tokens _ _ ih =>
      obtain ⟨before, own, after, rfl, span, spelled⟩ := ih member
      refine ⟨byte :: before, own, after, rfl, ?_, spelled⟩
      rw [span, List.length_cons, Nat.add_assoc place, Nat.add_comm 1]
  | @token place first rest kind tokens spells ends _ ih =>
      rcases List.mem_cons.mp member with rfl | later
      · exact ⟨[], first, rest, rfl, rfl, spells, ends⟩
      · obtain ⟨before, own, after, rfl, span, spelled⟩ := ih later
        refine ⟨first ++ before, own, after, (List.append_assoc _ _ _).symm, ?_, spelled⟩
        rw [span, List.length_append, Nat.add_assoc place]

theorem ignored_of_outside (layout : Layout place bytes tokens) {offset : Nat} {byte : UInt8}
    (here : bytes[offset]? = some byte)
    (outside : ∀ token ∈ tokens,
      ¬ (token.span.start ≤ place + offset ∧ place + offset < token.span.stop)) :
    Lead.of byte = .ignored := by
  induction layout generalizing offset with
  | nil place => cases here
  | @ignored place first rest tokens lead _ ih =>
      cases offset with
      | zero =>
          cases here
          exact lead
      | succ offset =>
          rw [List.getElem?_cons_succ] at here
          rw [Nat.add_comm offset, ← Nat.add_assoc] at outside
          exact ih here outside
  | @token place own rest kind tokens _ _ _ ih =>
      obtain ⟨notHere, others⟩ := List.forall_mem_cons.mp outside
      simp only at notHere
      have behind : own.length ≤ offset := by omega
      rw [List.getElem?_append_right behind] at here
      refine ih here ?_
      rw [Nat.add_assoc, Nat.add_sub_cancel' behind]
      exact others

end Layout

namespace Lexer

/-! ### Whole documents -/

def note (tokens : List Token) (token : Token) : List Token × Option LexError :=
  (tokens ++ [token], none)

def document (lexer : Lexer) (tokens : List Token) : List Bytes → List Token × Option LexError
  | [] => (lexer.finish note id tokens).2
  | chunk :: chunks =>
    match lexer.push note id tokens chunk with
    | (_, tokens, some error) => (tokens, some error)
    | (lexer, tokens, none) => lexer.document tokens chunks

theorem handAll_note (tokens own : List Token) :
    Token.handAll note tokens own = (tokens ++ own, none) := by
  induction own generalizing tokens with
  | nil => rw [Token.handAll, List.append_nil]
  | cons token rest ih =>
      rw [Token.handAll_cons_ok rfl, ih, List.append_assoc, List.singleton_append]

/-- The chunks of a document make no difference. -/
theorem document_readOn {lexer : Lexer} (sound : lexer.Sound) (tokens : List Token)
    (chunks : List Bytes) :
    lexer.document tokens chunks =
      match lexer.readOn chunks.flatten with
      | ⟨own, some error⟩ => (tokens ++ own, some error)
      | ⟨own, none⟩ =>
        (tokens ++ (own ++ [⟨.endOfInput, lexer.position + chunks.flatten.length,
          lexer.position + chunks.flatten.length⟩]), none) := by
  induction chunks generalizing lexer tokens with
  | nil =>
      obtain ⟨stopped, ended⟩ := finish_flush note id lexer tokens
      rw [document, ended, handAll_note, List.flatten_nil]
      simp only [readOn, scan, List.nil_append]
      rcases lexer.flush with ⟨own, _ | error⟩
      · simp only [note, List.append_assoc, List.length_nil, Nat.add_zero]
      · rfl
  | cons chunk chunks ih =>
      obtain ⟨stopped, pushed⟩ := push_scan note id lexer tokens chunk
      rw [document, pushed, handAll_note, List.flatten_cons]
      rcases scanned : lexer.scan chunk with ⟨own, error | next⟩
      · rw [readOn, scan_append_error scanned]
        rfl
      · have advance := scan_advance sound scanned
        rw [readOn_append_ok scanned, List.length_append, ← Nat.add_assoc, ← advance.position]
        simp only [ih advance.sound]
        rcases next.readOn chunks.flatten with ⟨more, _ | error⟩
        · simp only [List.append_assoc]
        · simp only [List.append_assoc]

theorem Reached.readOn_reset {lexer : Lexer} (reached : lexer.Reached) (source : Bytes) :
    lexer.reset.readOn source = (idle 0).readOn source :=
  (Same.reset reached.faithful 0 0).readOn source

theorem Reached.document_reset {lexer : Lexer} (reached : lexer.Reached) (chunks : List Bytes)
    (tokens : List Token) :
    lexer.reset.document [] chunks = (tokens, none) ↔ ∃ inner, Layout 0 chunks.flatten inner ∧
      tokens = inner ++ [⟨.endOfInput, chunks.flatten.length, chunks.flatten.length⟩] := by
  have sound : lexer.reset.Sound := sound_reset lexer
  have start : lexer.reset.position = 0 := rfl
  rw [document_readOn sound, reached.readOn_reset, start, Nat.zero_add]
  constructor
  · intro lexed
    rcases read : (idle 0).readOn chunks.flatten with ⟨inner, _ | error⟩
    · rw [read] at lexed
      cases lexed
      exact ⟨inner, layout_of_readOn read, rfl⟩
    · rw [read] at lexed
      cases lexed
  · rintro ⟨inner, layout, rfl⟩
    rw [layout.readOn]
    rfl

end Lexer

/-- The bytes of its span, lexed alone, are the token and nothing else, whatever the chunks and
whatever the lexer was used for before. -/
def Token.Alone (source : Bytes) (token : Token) : Prop :=
  ∀ (lexer : Lexer) (chunks : List Bytes), lexer.Reached → chunks.flatten = token.span.of source →
    lexer.reset.document [] chunks = ([⟨token.kind, 0, token.span.length⟩,
      ⟨.endOfInput, token.span.length, token.span.length⟩], none)

theorem Spells.alone {own : Bytes} {kind : Token.Kind} (spells : Spells own kind)
    (before after : Bytes) :
    Token.Alone (before ++ (own ++ after))
      ⟨kind, before.length, before.length + own.length⟩ := by
  intro lexer chunks reached same
  have layout := Layout.single spells 0
  rw [Nat.zero_add] at layout
  have length : Span.length ⟨before.length, before.length + own.length⟩ = own.length :=
    Nat.add_sub_cancel_left _ _
  rw [Span.of_middle] at same
  simp only [length]
  refine (reached.document_reset chunks _).mpr ⟨[⟨kind, 0, own.length⟩], ?_, ?_⟩
  · rw [same]
    exact layout
  · rw [same]
    rfl

namespace Lexer

/-- A document lexed without an error. Its tokens follow each other inside the document, each with
its spelling as its span, which is the same token when it is lexed alone. The end of input comes
last, and the bytes between the spans can start no token. -/
theorem document_spelled {lexer : Lexer} (reached : lexer.Reached) {chunks : List Bytes}
    {tokens : List Token} (lexed : lexer.reset.document [] chunks = (tokens, none)) :
    let source := chunks.flatten
    ∃ inner, tokens = inner ++ [⟨.endOfInput, source.length, source.length⟩] ∧
      tokens.Pairwise (fun left right => left.span.stop ≤ right.span.start) ∧
      (∀ token ∈ inner, token.span.start < token.span.stop ∧ token.span.stop ≤ source.length ∧
        token.Spelled source ∧ token.Alone source) ∧
      ∀ offset byte, source[offset]? = some byte →
        (∀ token ∈ inner, ¬ (token.span.start ≤ offset ∧ offset < token.span.stop)) →
        byte ∉ Token.starters := by
  intro source
  obtain ⟨inner, layout, rfl⟩ := (reached.document_reset chunks tokens).mp lexed
  have read : Lexing.of source = ⟨inner, none⟩ := layout.readOn
  have chain := Lexing.chain source
  rw [read] at chain
  refine ⟨inner, rfl, ?_, fun token member => ?_, fun offset byte here outside => ?_⟩
  · refine List.pairwise_append.mpr ⟨chain.pairwise, List.pairwise_singleton _ _, ?_⟩
    intro left early right final
    rw [List.mem_singleton.mp final]
    exact (chain.mem early).2.2
  · obtain ⟨-, proper, inside⟩ := chain.mem member
    obtain ⟨before, own, after, split, span, spells, ends⟩ := layout.mem member
    refine ⟨proper, inside, ?_⟩
    obtain ⟨kind, own_span⟩ := token
    simp only [Nat.zero_add] at span
    subst span
    rw [show source = before ++ (own ++ after) from split]
    exact ⟨spells.spelled before ends, spells.alone before after⟩
  · refine Lead.not_mem_starters (layout.ignored_of_outside here ?_)
    rw [Nat.zero_add]
    exact outside

set_option maxRecDepth 20000 in
/-- The string holds an escaped backslash and an escaped quote, the number ends at a byte that can
start no token, and the lexer was left inside a literal. -/
theorem document_spelled_escapes :
    let lexer := ((Lexer.new (StringCache.new 4 8)).push note id [] [0x22, 0x61, 0x22, 0x74]).1
    let chunks : List Bytes := [[0x5B, 0x22, 0x5C], [0x5C, 0x5C, 0x22, 0x22, 0x2C, 0x2D],
      [0x30, 0x78, 0x20, 0x74, 0x72, 0x75, 0x65, 0x5D]]
    let inner : List Token := [⟨.openArray, 0, 1⟩, ⟨.string "\\\"", 1, 7⟩, ⟨.comma, 7, 8⟩,
      ⟨.number (.signed 0), 8, 10⟩, ⟨.true, 12, 16⟩, ⟨.closeArray, 16, 17⟩]
    lexer.isIdle = false ∧
      lexer.reset.document [] chunks = (inner ++ [⟨.endOfInput, 17, 17⟩], none) ∧
      (∀ token ∈ inner, token.Spelled chunks.flatten ∧ token.Alone chunks.flatten) ∧
      (0x78 : UInt8) ∉ Token.starters := by
  intro lexer chunks inner
  have reached : lexer.Reached := .push note id (.new 4 8) [] [0x22, 0x61, 0x22, 0x74]
  have lexed : lexer.reset.document [] chunks = (inner ++ [⟨.endOfInput, 17, 17⟩], none) := by
    decide
  obtain ⟨own, split, -, spelled, gaps⟩ := document_spelled reached lexed
  obtain rfl : inner = own := (List.append_inj' split rfl).1
  refine ⟨by decide, lexed, fun token member => (spelled token member).2.2, ?_⟩
  exact gaps 10 0x78 (by decide) (by decide)

end Lexer

end JsonProjection
