import JsonProjection.Token.Lexer

/-!
The tokens of a source as a list.

`scan` says what a stretch of bytes comes to without a handler: the tokens that it completes, and
the lexer behind it or the error that ends it. Pushing a chunk is walking the handler along that
list, and scanning two chunks is scanning their concatenation. `Lexing.of` adds the end of the
source. The string cache is shown to have no part in any of it.
-/

namespace JsonProjection
namespace Lexer

/-! ### First bytes -/

/-- What a byte is while no token is under way: a token by itself, the first byte of a longer
token, or nothing. -/
inductive Lead where
  | mark (kind : Token.Kind)
  | begin (shape : Shape) (bytes : Bytes)
  | ignored
  deriving DecidableEq, Repr

def Lead.of (byte : UInt8) : Lead :=
  if byte == 0x7B then .mark .openObject
  else if byte == 0x7D then .mark .closeObject
  else if byte == 0x5B then .mark .openArray
  else if byte == 0x5D then .mark .closeArray
  else if byte == 0x3A then .mark .colon
  else if byte == 0x2C then .mark .comma
  else if byte == 0x22 then .begin (.string false) []
  else if byte == 0x74 then .begin (.literal .true) [byte]
  else if byte == 0x66 then .begin (.literal .false) [byte]
  else if byte == 0x6E then .begin (.literal .null) [byte]
  else if Decimal.isDigit byte || byte == 0x2D then .begin .number [byte]
  else .ignored

def Lead.take (lexer : Lexer) : Lead → Lexer × Outcome
  | .mark kind => lexer.mark kind
  | .begin shape bytes => lexer.begin shape bytes
  | .ignored => ({ lexer with position := lexer.position + 1 }, .nothing)

theorem Lead.scalar?_of_mark {byte : UInt8} {kind : Token.Kind} (lead : Lead.of byte = .mark kind) :
    kind.scalar? = none := by
  revert lead
  fun_cases Lead.of byte <;> rintro ⟨⟩ <;> rfl

theorem startToken_eq (lexer : Lexer) (byte : UInt8) :
    lexer.startToken byte = (Lead.of byte).take lexer := by
  unfold startToken Lead.of
  simp only [apply_ite (Lead.take lexer)]
  rfl

/-! ### Scanning -/

/-- One byte, with the tokens that it completes. A byte behind a number is taken again at once. -/
def takeByte (lexer : Lexer) (byte : UInt8) : List Token × Except LexError Lexer :=
  match lexer.step byte with
  | (lexer, .nothing) => ([], .ok lexer)
  | (lexer, .completes token) => ([token], .ok lexer)
  | (_, .fails error) => ([], .error error)
  | (lexer, .precedes token) =>
    match lexer.startToken byte with
    | (lexer, .completes next) => ([token, next], .ok lexer)
    | (lexer, _) => ([token], .ok lexer)

def scan (lexer : Lexer) : Bytes → List Token × Except LexError Lexer
  | [] => ([], .ok lexer)
  | byte :: rest =>
    match lexer.takeByte byte with
    | (tokens, .error error) => (tokens, .error error)
    | (tokens, .ok lexer) => (tokens ++ (scan lexer rest).1, (scan lexer rest).2)

def flush (lexer : Lexer) : List Token × Option LexError :=
  match lexer.pending with
  | none => ([], none)
  | some pending =>
    match pending.shape with
    | .string _ => ([], some (.unterminatedString pending.start))
    | .literal _ => ([], some (.unterminatedLiteral pending.start))
    | .number =>
      match pending.numeral with
      | .error error => ([], some error)
      | .ok value => ([⟨.number value, pending.start, lexer.position⟩], none)

end Lexer

/-- The tokens of a source, the end of input apart, and the lexical error that breaks them off. -/
structure Lexing where
  tokens : List Token
  error? : Option LexError
  deriving DecidableEq, Repr

namespace Lexer

def readOn (lexer : Lexer) (bytes : Bytes) : Lexing :=
  match lexer.scan bytes with
  | (tokens, .error error) => ⟨tokens, some error⟩
  | (tokens, .ok lexer) => ⟨tokens ++ lexer.flush.1, lexer.flush.2⟩

end Lexer

def Lexing.of (source : Bytes) : Lexing :=
  (Lexer.new (StringCache.new 0 0)).readOn source

namespace Lexer

theorem scan_cons_error {lexer : Lexer} {byte : UInt8} {tokens : List Token} {error : LexError}
    (taken : lexer.takeByte byte = (tokens, .error error)) (rest : Bytes) :
    lexer.scan (byte :: rest) = (tokens, .error error) := by
  rw [scan, taken]

theorem scan_cons_ok {lexer next : Lexer} {byte : UInt8} {tokens : List Token}
    (taken : lexer.takeByte byte = (tokens, .ok next)) (rest : Bytes) :
    lexer.scan (byte :: rest) = (tokens ++ (next.scan rest).1, (next.scan rest).2) := by
  rw [scan, taken]

theorem scan_append_error {lexer : Lexer} {first : Bytes} {tokens : List Token} {error : LexError}
    (scanned : lexer.scan first = (tokens, .error error)) (second : Bytes) :
    lexer.scan (first ++ second) = (tokens, .error error) := by
  induction first generalizing lexer tokens with
  | nil => cases scanned
  | cons byte rest ih =>
      rw [List.cons_append]
      rcases taken : lexer.takeByte byte with ⟨some, outcome⟩
      cases outcome with
      | error reason =>
          rw [scan_cons_error taken] at scanned ⊢
          exact scanned
      | ok next =>
          rw [scan_cons_ok taken] at scanned ⊢
          rcases behind : next.scan rest with ⟨more, outcome⟩
          rw [behind] at scanned
          cases scanned
          rw [ih behind]

theorem scan_append_ok {lexer next : Lexer} {first : Bytes} {tokens : List Token}
    (scanned : lexer.scan first = (tokens, .ok next)) (second : Bytes) :
    lexer.scan (first ++ second) = (tokens ++ (next.scan second).1, (next.scan second).2) := by
  induction first generalizing lexer tokens with
  | nil =>
      cases scanned
      rfl
  | cons byte rest ih =>
      rw [List.cons_append]
      rcases taken : lexer.takeByte byte with ⟨some, outcome⟩
      cases outcome with
      | error reason =>
          rw [scan_cons_error taken] at scanned
          cases scanned
      | ok between =>
          rw [scan_cons_ok taken] at scanned ⊢
          rcases behind : between.scan rest with ⟨more, outcome⟩
          rw [behind] at scanned
          cases scanned
          rw [ih behind, List.append_assoc]

theorem readOn_append_ok {lexer next : Lexer} {first : Bytes} {tokens : List Token}
    (scanned : lexer.scan first = (tokens, .ok next)) (second : Bytes) :
    lexer.readOn (first ++ second) =
      ⟨tokens ++ (next.readOn second).tokens, (next.readOn second).error?⟩ := by
  rw [readOn, scan_append_ok scanned, readOn]
  rcases next.scan second with ⟨more, outcome⟩
  cases outcome with
  | error error => rfl
  | ok last => simp only [List.append_assoc]

end Lexer

/-! ### Handlers -/

def Token.handAll {σ ε : Type} (handle : σ → Token → σ × Option ε) :
    σ → List Token → σ × Option ε
  | state, [] => (state, none)
  | state, token :: rest =>
    match handle state token with
    | (state, some error) => (state, some error)
    | (state, none) => Token.handAll handle state rest

namespace Token

variable {σ ε : Type} {handle : σ → Token → σ × Option ε}

theorem handAll_cons_error {state last : σ} {token : Token} {error : ε}
    (handed : handle state token = (last, some error)) (rest : List Token) :
    handAll handle state (token :: rest) = (last, some error) := by
  rw [handAll, handed]

theorem handAll_cons_ok {state next : σ} {token : Token}
    (handed : handle state token = (next, none)) (rest : List Token) :
    handAll handle state (token :: rest) = handAll handle next rest := by
  rw [handAll, handed]

theorem handAll_append_error {state last : σ} {first : List Token} {error : ε}
    (handed : handAll handle state first = (last, some error)) (second : List Token) :
    handAll handle state (first ++ second) = (last, some error) := by
  induction first generalizing state with
  | nil => cases handed
  | cons token rest ih =>
      rw [List.cons_append]
      rcases one : handle state token with ⟨next, _ | refusal⟩
      · rw [handAll_cons_ok one] at handed ⊢
        exact ih handed
      · rw [handAll_cons_error one] at handed ⊢
        exact handed

theorem handAll_append_ok {state next : σ} {first : List Token}
    (handed : handAll handle state first = (next, none)) (second : List Token) :
    handAll handle state (first ++ second) = handAll handle next second := by
  induction first generalizing state with
  | nil =>
      cases handed
      rfl
  | cons token rest ih =>
      rw [List.cons_append]
      rcases one : handle state token with ⟨between, _ | refusal⟩
      · rw [handAll_cons_ok one] at handed ⊢
        exact ih handed
      · rw [handAll_cons_error one] at handed
        cases handed

end Token

namespace Lexer

variable {σ ε : Type} (handle : σ → Token → σ × Option ε) (raise : LexError → ε)

private theorem push_cons (lexer : Lexer) (state : σ) (byte : UInt8) (rest : Bytes) :
    ∃ stopped : Lexer, push handle raise lexer state (byte :: rest) =
      match Token.handAll handle state (lexer.takeByte byte).1, (lexer.takeByte byte).2 with
      | (state, some error), _ => (stopped, state, some error)
      | (state, none), .error error => (stopped, state, some (raise error))
      | (state, none), .ok next => push handle raise next state rest := by
  rw [push, takeByte]
  rcases lexer.step byte with ⟨next, outcome⟩
  cases outcome with
  | nothing => exact ⟨next, rfl⟩
  | fails error => exact ⟨next, rfl⟩
  | completes token =>
      refine ⟨next, ?_⟩
      simp only [Token.handAll]
      rcases handle state token with ⟨after, _ | error⟩ <;> rfl
  | precedes token =>
      rcases begun : next.startToken byte with ⟨last, result⟩
      rcases first : handle state token with ⟨after, _ | error⟩
      · cases result with
        | completes second =>
            refine ⟨last, ?_⟩
            simp only [begun, first, Token.handAll]
            rcases handle after second with ⟨final, _ | error⟩ <;> rfl
        | nothing => exact ⟨last, by simp only [begun, first, Token.handAll]⟩
        | precedes second => exact ⟨last, by simp only [begun, first, Token.handAll]⟩
        | fails error => exact ⟨last, by simp only [begun, first, Token.handAll]⟩
      · refine ⟨next, ?_⟩
        simp only [begun, first]
        cases result <;> simp only [Token.handAll, first]

/-- Pushing a chunk is handing on its tokens: the first refusal ends it, or else the lexical error
that ends the scan. -/
theorem push_scan (lexer : Lexer) (state : σ) (bytes : Bytes) :
    ∃ stopped : Lexer, push handle raise lexer state bytes =
      match Token.handAll handle state (lexer.scan bytes).1, (lexer.scan bytes).2 with
      | (state, some error), _ => (stopped, state, some error)
      | (state, none), .error error => (stopped, state, some (raise error))
      | (state, none), .ok next => (next, state, none) := by
  induction bytes generalizing lexer state with
  | nil => exact ⟨lexer, rfl⟩
  | cons byte rest ih =>
      obtain ⟨stopped, pushed⟩ :=
        push_cons handle raise lexer state byte rest
      rw [pushed]
      rcases taken : lexer.takeByte byte with ⟨tokens, error | next⟩
      · rw [scan_cons_error taken]
        refine ⟨stopped, ?_⟩
        rcases Token.handAll handle state tokens with ⟨after, _ | refusal⟩ <;> rfl
      · rw [scan_cons_ok taken]
        rcases handed : Token.handAll handle state tokens with ⟨after, _ | error⟩
        · obtain ⟨final, behind⟩ := ih next after
          refine ⟨final, ?_⟩
          simp only [Token.handAll_append_ok handed, behind]
        · refine ⟨stopped, ?_⟩
          simp only [Token.handAll_append_error handed]

theorem finish_flush (lexer : Lexer) (state : σ) :
    ∃ stopped : Lexer, finish handle raise lexer state =
      match Token.handAll handle state lexer.flush.1, lexer.flush.2 with
      | (state, some error), _ => (stopped, state, some error)
      | (state, none), some error => (stopped, state, some (raise error))
      | (state, none), none =>
        (stopped, handle state ⟨.endOfInput, lexer.position, lexer.position⟩) := by
  rw [finish, flush]
  cases lexer.pending with
  | none => exact ⟨lexer, rfl⟩
  | some pending =>
      rcases pending with ⟨shape, start, latest⟩
      cases shape with
      | string escaped => exact ⟨lexer, rfl⟩
      | literal word => exact ⟨lexer, rfl⟩
      | number =>
          rcases read : Pending.numeral ⟨.number, start, latest⟩ with error | value
          · exact ⟨lexer, by simp only [read, Token.handAll]⟩
          · refine ⟨{ lexer with pending := none }, ?_⟩
            simp only [read, Token.handAll]
            rcases handle state ⟨.number value, start, lexer.position⟩ with ⟨after, _ | error⟩ <;>
              rfl

end Lexer
end JsonProjection
