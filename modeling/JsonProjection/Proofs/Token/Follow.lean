import JsonProjection.Proofs.Token.Spans

/-!
Two handlers of one lexer in step.

Where one handler does with every token what the other does, seen through a map of the states and
one of the errors, both come to the same with a whole chunk. That has to hold only of the states
and tokens that come up, so an invariant of the bytes to come, the lexer and the state goes along.
-/

namespace JsonProjection.Lexer

variable {σ σ' ε ε' : Type}

/-- A handler does with a token what another does, seen through two maps. -/
def Follows (leader : σ → Token → σ × Option ε) (follower : σ' → Token → σ' × Option ε')
    (state : σ → σ') (error : ε → ε') (current : σ) (token : Token) : Prop :=
  follower (state current) token =
    (state (leader current token).1, (leader current token).2.map error)

/-- An invariant under which a handler follows another on every token that a lexer can have for
it. -/
structure Tracks (leader : σ → Token → σ × Option ε) (follower : σ' → Token → σ' × Option ε')
    (state : σ → σ') (error : ε → ε') (Inv : Bytes → Lexer → σ → Prop) : Prop where
  step : ∀ {byte rest lexer current}, Inv (byte :: rest) lexer current →
    match lexer.step byte with
    | (next, .nothing) => Inv rest next current
    | (next, .fails _) => Inv rest next current
    | (next, .completes token) =>
      Follows leader follower state error current token ∧ Inv rest next (leader current token).1
    | (next, .precedes token) =>
      Follows leader follower state error current token ∧
        Inv (byte :: rest) next (leader current token).1
  number : ∀ {lexer current pending} (value : Numeral), Inv [] lexer current →
    lexer.pending = some pending →
    Follows leader follower state error current ⟨.number value, pending.start, lexer.position⟩ ∧
      Inv [] { lexer with pending := none }
        (leader current ⟨.number value, pending.start, lexer.position⟩).1
  ending : ∀ {lexer current}, Inv [] lexer current →
    Follows leader follower state error current
        ⟨.endOfInput, lexer.position, lexer.position⟩ ∧
      Inv [] lexer (leader current ⟨.endOfInput, lexer.position, lexer.position⟩).1

variable {leader : σ → Token → σ × Option ε} {follower : σ' → Token → σ' × Option ε'}
  {state : σ → σ'} {error : ε → ε'} {Inv : Bytes → Lexer → σ → Prop}

theorem Tracks.of_follows (follows : ∀ current token,
    Follows leader follower state error current token) :
    Tracks leader follower state error fun _ _ _ => True where
  step := by
    intro byte rest lexer current _
    rcases lexer.step byte with ⟨next, _ | token | token | error⟩
    · trivial
    · exact ⟨follows current token, trivial⟩
    · exact ⟨follows current token, trivial⟩
    · trivial
  number := fun _ _ _ => ⟨follows _ _, trivial⟩
  ending := fun _ => ⟨follows _ _, trivial⟩

variable {raise : LexError → ε} {raise' : LexError → ε'}

theorem Tracks.push (tracks : Tracks leader follower state error Inv)
    (raises : ∀ lexical, raise' lexical = error (raise lexical)) (lexer : Lexer) (current : σ)
    (bytes : Bytes) (inv : Inv bytes lexer current) :
    Lexer.push follower raise' lexer (state current) bytes =
        ((Lexer.push leader raise lexer current bytes).1,
          state (Lexer.push leader raise lexer current bytes).2.1,
          (Lexer.push leader raise lexer current bytes).2.2.map error) ∧
      ∃ rest, Inv rest (Lexer.push leader raise lexer current bytes).1
        (Lexer.push leader raise lexer current bytes).2.1 := by
  induction bytes generalizing lexer current with
  | nil => exact ⟨rfl, [], inv⟩
  | cons byte rest ih =>
      have stepped := tracks.step inv
      have goes := step_goes lexer byte
      rw [Lexer.push, Lexer.push]
      rcases taken : lexer.step byte with ⟨next, _ | token | token | lexical⟩
      · rw [taken] at stepped
        exact ih _ _ stepped
      · rw [taken] at stepped
        obtain ⟨follows, behind⟩ := stepped
        unfold Follows at follows
        simp only [follows]
        rcases handed : leader current token with ⟨after, _ | refusal⟩
        · rw [handed] at behind
          exact ih _ _ behind
        · rw [handed] at behind
          exact ⟨rfl, rest, behind⟩
      · rw [taken] at stepped goes
        obtain ⟨follows, between⟩ := stepped
        unfold Follows at follows
        simp only [follows]
        rcases handed : leader current token with ⟨after, _ | refusal⟩
        · -- Behind a number nothing is under way, so that its byte is one more step.
          rw [handed] at between
          have started := tracks.step between
          rw [step_idle goes.2.2, startToken_eq] at started
          rw [startToken_eq]
          cases lead : Lead.of byte with
          | mark kind =>
              rw [lead] at started
              obtain ⟨again, behind⟩ := started
              unfold Follows at again
              simp only [Lead.take, mark, again, Option.map_none] at behind ⊢
              generalize leader after _ = result at behind ⊢
              rcases result with ⟨final, _ | refusal⟩
              · exact ih _ _ behind
              · exact ⟨rfl, rest, behind⟩
          | begin shape bytes =>
              rw [lead] at started
              exact ih _ _ started
          | ignored =>
              rw [lead] at started
              exact ih _ _ started
        · rw [handed] at between
          exact ⟨rfl, byte :: rest, between⟩
      · rw [taken] at stepped
        exact ⟨by simp only [raises, Option.map_some], rest, stepped⟩

theorem Tracks.finish (tracks : Tracks leader follower state error Inv)
    (raises : ∀ lexical, raise' lexical = error (raise lexical)) (lexer : Lexer) (current : σ)
    (inv : Inv [] lexer current) :
    Lexer.finish follower raise' lexer (state current) =
        ((Lexer.finish leader raise lexer current).1,
          state (Lexer.finish leader raise lexer current).2.1,
          (Lexer.finish leader raise lexer current).2.2.map error) ∧
      Inv [] (Lexer.finish leader raise lexer current).1
        (Lexer.finish leader raise lexer current).2.1 := by
  obtain ⟨ends, behind⟩ := tracks.ending inv
  unfold Follows at ends
  unfold Lexer.finish
  cases under : lexer.pending with
  | none => exact ⟨by simp only [ends], behind⟩
  | some pending =>
      simp only
      cases pending.shape with
      | string escaped => exact ⟨by simp only [raises, Option.map_some], inv⟩
      | literal word => exact ⟨by simp only [raises, Option.map_some], inv⟩
      | number =>
          simp only
          cases pending.numeral with
          | error lexical => exact ⟨by simp only [raises, Option.map_some], inv⟩
          | ok value =>
              obtain ⟨follows, between⟩ := tracks.number value inv under
              unfold Follows at follows
              simp only [follows]
              rcases handed : leader current ⟨.number value, pending.start, lexer.position⟩ with
                ⟨after, _ | refusal⟩
              · rw [handed] at between
                obtain ⟨last, behind⟩ := tracks.ending between
                unfold Follows at last
                exact ⟨by simp only [Option.map_none, last], behind⟩
              · rw [handed] at between
                exact ⟨rfl, between⟩

end JsonProjection.Lexer
