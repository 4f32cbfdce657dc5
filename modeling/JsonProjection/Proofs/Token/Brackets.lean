import JsonProjection.Projection.Walker
import JsonProjection.Proofs.Token.Cache

/-!
Brackets among tokens.

The brackets of a source do not depend on where its numbers end: a lexer that was told in the middle
of a number that the source ends finds the same brackets behind it, unless what is left of the
number, or the number as a whole, is none.
-/

namespace JsonProjection

/-! ### Balance -/

/-- The brackets that some tokens open, less those that they close. -/
def Token.balance (tokens : List Token) : Int :=
  tokens.countP (·.kind.opens?.isSome) - tokens.countP (·.kind.closes?.isSome)

namespace Token

variable {token : Token}

@[simp]
theorem balance_nil : balance [] = 0 :=
  rfl

@[simp]
theorem balance_append (left right : List Token) :
    balance (left ++ right) = balance left + balance right := by
  unfold balance
  rw [List.countP_append, List.countP_append]
  omega

theorem balance_cons (token : Token) (rest : List Token) :
    balance (token :: rest) = balance [token] + balance rest :=
  balance_append [token] rest

theorem balance_open {container : Container} (opens : token.kind.opens? = some container) :
    balance [token] = 1 := by
  rcases token with ⟨kind, span⟩
  cases kind <;> first | rfl | cases opens

theorem balance_close {container : Container} (closes : token.kind.closes? = some container) :
    balance [token] = -1 := by
  rcases token with ⟨kind, span⟩
  cases kind <;> first | rfl | cases closes

theorem balance_none (opens : token.kind.opens? = none) (closes : token.kind.closes? = none) :
    balance [token] = 0 := by
  rcases token with ⟨kind, span⟩
  cases kind with
  | openObject | openArray => cases opens
  | closeObject | closeArray => cases closes
  | _ => rfl

theorem balance_scalar {value : Json.Value} (scalar : token.kind.scalar? = some value) :
    balance [token] = 0 := by
  rcases token with ⟨kind, span⟩
  cases kind <;> first | rfl | cases scalar

end Token

namespace Lexer

variable {lexer next one other : Lexer} {byte : UInt8} {tokens : List Token}

theorem flush_balance (lexer : Lexer) : Token.balance lexer.flush.1 = 0 := by
  unfold flush
  cases lexer.pending with
  | none => rfl
  | some pending =>
      rcases pending with ⟨shape, start, latest⟩
      cases shape with
      | string escaped => rfl
      | literal word => rfl
      | number =>
          simp only
          cases Pending.numeral ⟨.number, start, latest⟩ <;> rfl

/-! ### Lexers that differ in a number -/

def Numeric (lexer : Lexer) : Prop :=
  ∀ pending, lexer.pending = some pending → pending.shape = .number

theorem Numeric.of_idle (idle : lexer.pending = none) : lexer.Numeric := by
  intro pending under
  rw [idle] at under
  cases under

def dropped (lexer : Lexer) : Lexer :=
  { lexer with pending := none }

theorem numeric_of_flush (flushed : lexer.flush.2 = none) : lexer.Numeric := by
  intro pending under
  unfold flush at flushed
  rw [under] at flushed
  cases shape : pending.shape with
  | string escaped =>
      simp only [shape] at flushed
      cases flushed
  | literal word =>
      simp only [shape] at flushed
      cases flushed
  | number => rfl

theorem finish_dropped {σ ε : Type} (handle : σ → Token → σ × Option ε) (raise : LexError → ε)
    (flushed : lexer.flush.2 = none) (state : σ) :
    (finish handle raise lexer state).1 = lexer.dropped := by
  unfold finish
  cases under : lexer.pending with
  | none =>
      show lexer = lexer.dropped
      rw [dropped, ← under]
  | some pending =>
      rcases pending with ⟨shape, start, latest⟩
      obtain rfl : shape = .number := numeric_of_flush flushed _ under
      rcases read : Pending.numeral ⟨.number, start, latest⟩ with error | value
      · simp only [flush, under, read] at flushed
        cases flushed
      · simp only [read]
        rcases handle state ⟨.number value, start, lexer.position⟩ with ⟨after, _ | error⟩ <;> rfl

theorem idle_of_flush (flushed : lexer.flush = ([], none)) : lexer.pending = none := by
  have numeric := numeric_of_flush (congrArg Prod.snd flushed)
  cases under : lexer.pending with
  | none => rfl
  | some pending =>
      obtain ⟨shape, start, latest⟩ := pending
      obtain rfl : shape = .number := numeric _ under
      rcases read : Pending.numeral ⟨.number, start, latest⟩ with error | value
      · simp only [flush, under, read] at flushed
        cases flushed
      · simp only [flush, under, read] at flushed
        cases flushed

theorem flush_advance (sound : lexer.Sound) (flushed : lexer.flush.2 = none) :
    lexer.Advance lexer.flush.1 lexer.dropped 0 := by
  refine ⟨rfl, ?_, flush_chain sound, ?_, flush_inner lexer, ?_, ?_⟩
  · rintro start ⟨⟩
  · intro token member
    exact Nat.le_of_eq (flush_starts lexer token member).2.symm
  · intro start under nothing
    have idle := idle_of_flush (Prod.ext nothing flushed)
    rw [pendingStart?, idle] at under
    cases under
  · intro start under token first
    have here := (flush_starts lexer token (List.mem_of_mem_head? first)).1
    rw [under] at here
    exact (Option.some.inj here).symm

/-- Two lexers are in the same place but for a number that may be under way. -/
def Alike (one other : Lexer) : Prop :=
  one.Same other ∨ one.Numeric ∧ other.Numeric ∧ one.dropped.Same other.dropped

theorem Same.dropped (same : one.Same other) : one.dropped.Same other.dropped :=
  ⟨same.position, rfl, same.faithful, same.otherFaithful⟩

theorem Alike.dropped (alike : one.Alike other) (numeric : one.Numeric) :
    one.dropped.Alike other := by
  have idle : one.dropped.Numeric := .of_idle rfl
  rcases alike with same | ⟨_, otherNumeric, same⟩
  · have otherNumeric : other.Numeric := by
      unfold Numeric
      rw [← same.pending]
      exact numeric
    exact Or.inr ⟨idle, otherNumeric, same.dropped⟩
  · exact Or.inr ⟨idle, otherNumeric, same⟩

theorem Lead.of_isNumberByte (inside : isNumberByte byte = true) :
    Lead.of byte = .begin .number [byte] ∨ Lead.of byte = .ignored := by
  have apart (mark : UInt8) (outside : isNumberByte mark = false) : (byte == mark) = false := by
    refine beq_false_of_ne fun same => ?_
    rw [same, outside] at inside
    cases inside
  unfold Lead.of
  simp only [apart 0x7B rfl, apart 0x7D rfl, apart 0x5B rfl, apart 0x5D rfl, apart 0x3A rfl,
    apart 0x2C rfl, apart 0x22 rfl, apart 0x74 rfl, apart 0x66 rfl, apart 0x6E rfl,
    Bool.false_eq_true, if_false]
  split
  · exact Or.inl rfl
  · exact Or.inr rfl

theorem Numeric.inside (numeric : lexer.Numeric) (inside : isNumberByte byte = true)
    (taken : lexer.takeByte byte = (tokens, .ok next)) :
    next.Numeric ∧ next.dropped = { lexer.dropped with position := lexer.position + 1 } ∧
      tokens = [] := by
  unfold takeByte at taken
  cases under : lexer.pending with
  | none =>
      rw [step_idle under, startToken_eq] at taken
      rcases Lead.of_isNumberByte inside with lead | lead
      · rw [lead] at taken
        cases taken
        refine ⟨?_, rfl, rfl⟩
        rintro pending ⟨⟩
        rfl
      · rw [lead] at taken
        cases taken
        exact ⟨.of_idle under, rfl, rfl⟩
  | some pending =>
      rcases pending with ⟨shape, start, latest⟩
      obtain rfl : shape = .number := numeric _ under
      simp only [step, under, inside, if_true, extend] at taken
      cases taken
      refine ⟨?_, rfl, rfl⟩
      rintro pending ⟨⟩
      rfl

theorem Numeric.behind (numeric : lexer.Numeric) (outside : isNumberByte byte = false)
    (taken : lexer.takeByte byte = (tokens, .ok next)) :
    ∃ own, lexer.dropped.takeByte byte = (own, .ok next) ∧
      Token.balance tokens = Token.balance own := by
  cases under : lexer.pending with
  | none =>
      have same : lexer.dropped = lexer := by
        rw [dropped, ← under]
      rw [same]
      exact ⟨tokens, taken, rfl⟩
  | some pending =>
      rcases pending with ⟨shape, start, latest⟩
      obtain rfl : shape = .number := numeric _ under
      unfold takeByte at taken ⊢
      rw [step_idle (show lexer.dropped.pending = none from rfl)]
      rcases read : Pending.numeral ⟨.number, start, latest⟩ with error | value
      · have ended : lexer.step byte = (lexer, .fails error) := by
          simp only [step, under, outside, read, Bool.false_eq_true, if_false]
        rw [ended] at taken
        cases taken
      · have ended : lexer.step byte =
            (lexer.dropped, .precedes ⟨.number value, start, lexer.position⟩) := by
          simp only [step, under, outside, read, Bool.false_eq_true, if_false]
          rfl
        rw [ended] at taken
        simp only [startToken_eq] at taken ⊢
        have flat : Token.balance [⟨.number value, start, lexer.position⟩] = 0 :=
          Token.balance_scalar rfl
        cases lead : Lead.of byte with
        | mark kind =>
            rw [lead] at taken
            cases taken
            refine ⟨_, rfl, ?_⟩
            rw [Token.balance_cons, flat, Int.zero_add]
        | begin shape bytes =>
            rw [lead] at taken
            cases taken
            exact ⟨[], rfl, flat⟩
        | ignored =>
            rw [lead] at taken
            cases taken
            exact ⟨[], rfl, flat⟩

theorem Alike.takeByte {oneTokens otherTokens : List Token} {oneNext otherNext : Lexer}
    (alike : one.Alike other) (oneTaken : one.takeByte byte = (oneTokens, .ok oneNext))
    (otherTaken : other.takeByte byte = (otherTokens, .ok otherNext)) :
    oneNext.Alike otherNext ∧ Token.balance oneTokens = Token.balance otherTokens := by
  rcases alike with same | ⟨oneNumeric, otherNumeric, same⟩
  · have taken := same.takeByte byte
    rw [oneTaken, otherTaken] at taken
    cases taken with
    | ok tokens behind => exact ⟨Or.inl behind, rfl⟩
  · cases inside : isNumberByte byte with
    | true =>
        obtain ⟨oneStays, oneSame, oneNone⟩ := oneNumeric.inside inside oneTaken
        obtain ⟨otherStays, otherSame, otherNone⟩ := otherNumeric.inside inside otherTaken
        refine ⟨Or.inr ⟨oneStays, otherStays, ?_⟩, by rw [oneNone, otherNone]⟩
        rw [oneSame, otherSame]
        exact ⟨congrArg (· + 1) same.position, rfl, same.faithful, same.otherFaithful⟩
    | false =>
        obtain ⟨oneOwn, oneLast, oneBalance⟩ := oneNumeric.behind inside oneTaken
        obtain ⟨otherOwn, otherLast, otherBalance⟩ := otherNumeric.behind inside otherTaken
        have taken := same.takeByte byte
        rw [oneLast, otherLast] at taken
        cases taken with
        | ok tokens behind => exact ⟨Or.inl behind, oneBalance.trans otherBalance.symm⟩

theorem Alike.scan {bytes : Bytes} {oneTokens otherTokens : List Token}
    {oneNext otherNext : Lexer} (alike : one.Alike other)
    (oneScanned : one.scan bytes = (oneTokens, .ok oneNext))
    (otherScanned : other.scan bytes = (otherTokens, .ok otherNext)) :
    oneNext.Alike otherNext ∧ Token.balance oneTokens = Token.balance otherTokens := by
  induction bytes generalizing one other oneTokens otherTokens with
  | nil =>
      cases oneScanned
      cases otherScanned
      exact ⟨alike, rfl⟩
  | cons byte rest ih =>
      rcases oneTaken : one.takeByte byte with ⟨oneOwn, error | oneMiddle⟩
      · rw [scan_cons_error oneTaken] at oneScanned
        cases oneScanned
      · rcases otherTaken : other.takeByte byte with ⟨otherOwn, error | otherMiddle⟩
        · rw [scan_cons_error otherTaken] at otherScanned
          cases otherScanned
        · obtain ⟨middle, first⟩ := alike.takeByte oneTaken otherTaken
          rw [scan_cons_ok oneTaken] at oneScanned
          rw [scan_cons_ok otherTaken] at otherScanned
          rcases oneBehind : oneMiddle.scan rest with ⟨oneMore, oneOutcome⟩
          rcases otherBehind : otherMiddle.scan rest with ⟨otherMore, otherOutcome⟩
          rw [oneBehind] at oneScanned
          rw [otherBehind] at otherScanned
          cases oneScanned
          cases otherScanned
          obtain ⟨last, second⟩ := ih middle oneBehind otherBehind
          rw [Token.balance_append, Token.balance_append, first, second]
          exact ⟨last, rfl⟩

end Lexer
end JsonProjection
