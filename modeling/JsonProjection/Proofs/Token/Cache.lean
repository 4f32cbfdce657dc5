import JsonProjection.Proofs.Token.Spans

/-!
The strings that were read before change no token.

A faithful cache holds every byte string with its text. Every lexer that a caller can hold has a
faithful cache, and with one the text of a string is decoded from its own bytes, whatever the slot
held. So two lexers in the same place take the same steps, whatever strings they remember.
-/

namespace JsonProjection

/-- Every string held is held with its text. -/
def StringCache.Faithful (cache : StringCache) : Prop :=
  ∀ raw text, (raw, text) ∈ cache.entries → text = Text.Utf8.decodeLossy raw

namespace StringCache

theorem faithful_new (capacity lengthBound : Nat) : (new capacity lengthBound).Faithful := by
  intro raw text member
  cases member

theorem Faithful.text_of_lookup {cache : StringCache} (faithful : cache.Faithful) {raw : Bytes}
    {text : String} (found : cache.entries.lookup raw = some text) :
    text = Text.Utf8.decodeLossy raw := by
  obtain ⟨before, after, split, _absent⟩ := List.lookup_eq_some_iff.mp found
  apply faithful
  rw [split]
  simp

theorem Faithful.intern_text {cache : StringCache} (faithful : cache.Faithful) {raw : Bytes}
    {text : String} (interned : (cache.intern raw).1 = some text) :
    text = Text.Utf8.decodeLossy raw := by
  unfold StringCache.intern at interned
  split at interned
  · cases interned
  · split at interned
    · rename_i held found
      cases interned
      exact faithful.text_of_lookup found
    · split at interned
      · cases interned
      · cases interned
        rfl

theorem Faithful.intern {cache : StringCache} (faithful : cache.Faithful) (raw : Bytes) :
    (cache.intern raw).2.Faithful := by
  unfold StringCache.intern
  split
  · exact faithful
  · split
    · exact faithful
    · split
      · exact faithful
      · intro other text member
        rcases List.mem_append.mp member with old | added
        · exact faithful other text old
        · cases List.mem_singleton.mp added
          rfl

end StringCache

namespace Lexer

/-! ### The cache along a run -/

section Invariant

variable {P : Lexer → Prop} {σ ε : Type} {handle : σ → Token → σ × Option ε}
  {raise : LexError → ε}

theorem push_invariant (atStep : ∀ lexer byte, P lexer → P (lexer.step byte).1)
    {lexer : Lexer} (holds : P lexer) (state : σ) (bytes : Bytes) :
    P (push handle raise lexer state bytes).1 := by
  induction bytes generalizing lexer state with
  | nil => exact holds
  | cons byte rest ih =>
      have stepped := atStep lexer byte holds
      have goes := step_goes lexer byte
      rw [push]
      rcases taken : lexer.step byte with ⟨next, outcome⟩
      rw [taken] at stepped goes
      cases outcome with
      | nothing => exact ih stepped state
      | fails error => exact stepped
      | completes token =>
          simp only
          rcases handle state token with ⟨after, _ | error⟩
          · exact ih stepped after
          · exact stepped
      | precedes token =>
          -- Behind a number nothing is under way, so that its byte is one more step.
          have started := atStep next byte stepped
          rw [step_idle goes.2.2] at started
          simp only
          rcases handle state token with ⟨after, _ | error⟩
          · simp only
            rcases begun : next.startToken byte with ⟨last, outcome⟩
            rw [begun] at started
            cases outcome with
            | completes second =>
                simp only
                rcases handle after second with ⟨final, _ | error⟩
                · exact ih started final
                · exact started
            | nothing => exact ih started after
            | precedes second => exact ih started after
            | fails error => exact ih started after
          · exact stepped

theorem next?_invariant (atStep : ∀ lexer byte, P lexer → P (lexer.step byte).1)
    {lexer : Lexer} (holds : P lexer) (bytes : Bytes) : P (lexer.next? bytes).1 := by
  induction bytes generalizing lexer with
  | nil => exact holds
  | cons byte rest ih =>
      have stepped := atStep lexer byte holds
      rw [next?]
      generalize lexer.step byte = result at stepped ⊢
      rcases result with ⟨next, _ | token | token | error⟩
      · exact ih stepped
      · exact stepped
      · exact stepped
      · exact stepped

theorem pull_invariant (atStep : ∀ lexer byte, P lexer → P (lexer.step byte).1)
    {lexer : Lexer} (holds : P lexer) (limit : Nat) (bytes : Bytes) (latest : List Token) :
    P (lexer.pull limit bytes latest).1 := by
  induction limit generalizing lexer bytes latest with
  | zero => exact holds
  | succ limit ih =>
      have taken := next?_invariant atStep holds bytes
      rw [pull]
      generalize lexer.next? bytes = result at taken ⊢
      rcases result with ⟨next, rest, _ | error | token⟩
      · exact taken
      · exact taken
      · exact ih taken rest (token :: latest)

end Invariant

theorem TextSlot.text_write (slot : TextSlot) (text : String) : (slot.write text).text = text := by
  cases slot with
  | shared old => rfl
  | owned buffer => exact String.empty_append

theorem decodeString_cache (lexer : Lexer) (raw : Bytes) :
    (lexer.decodeString raw).cache = (lexer.cache.intern raw).2 := by
  unfold decodeString
  rcases lexer.cache.intern raw with ⟨_ | text, cache⟩ <;> rfl

theorem decodeString_text {lexer : Lexer} (faithful : lexer.cache.Faithful) (raw : Bytes) :
    (lexer.decodeString raw).slot.text = Text.Utf8.decodeLossy raw := by
  unfold decodeString
  rcases interned : lexer.cache.intern raw with ⟨_ | text, cache⟩
  · exact TextSlot.text_write _ _
  · exact faithful.intern_text (congrArg Prod.fst interned)

/-! ### What a byte does to the strings -/

def Outcome.token? : Outcome → Option Token
  | .completes token => some token
  | .precedes token => some token
  | _ => none

/-- A byte that ends no string leaves the cache and the slot, and completes no token of a string. -/
structure Passes (lexer : Lexer) (result : Lexer × Outcome) : Prop where
  cache : result.1.cache = lexer.cache
  slot : result.1.slot = lexer.slot
  other : ∀ token ∈ result.2.token?, ∀ text, token.kind ≠ .string text

theorem Passes.of_none {lexer : Lexer} {result : Lexer × Outcome}
    (cache : result.1.cache = lexer.cache) (slot : result.1.slot = lexer.slot)
    (none : result.2.token? = none) : lexer.Passes result := by
  refine ⟨cache, slot, ?_⟩
  intro token member
  rw [none] at member
  cases member

theorem Passes.of_token {lexer : Lexer} {result : Lexer × Outcome} {token : Token}
    (cache : result.1.cache = lexer.cache) (slot : result.1.slot = lexer.slot)
    (some : result.2.token? = some token) (other : ∀ text, token.kind ≠ .string text) :
    lexer.Passes result := by
  refine ⟨cache, slot, ?_⟩
  intro same member
  rw [some] at member
  cases member
  exact other

theorem startToken_passes (lexer : Lexer) (byte : UInt8) :
    lexer.Passes (lexer.startToken byte) := by
  rw [startToken_eq]
  cases lead : Lead.of byte with
  | mark kind =>
      refine .of_token rfl rfl rfl ?_
      rintro text rfl
      cases Lead.scalar?_of_mark lead
  | begin shape bytes => exact .of_none rfl rfl rfl
  | ignored => exact .of_none rfl rfl rfl

/-- Only a quote in a string has a text decoded, from the bytes of that string. -/
theorem step_cases (lexer : Lexer) (byte : UInt8) :
    (∃ start latest, lexer.pending = some ⟨.string false, start, latest⟩ ∧
        lexer.step byte =
          ({ lexer.decodeString latest.reverse with
              position := lexer.position + 1
              pending := none },
            .completes ⟨.string (lexer.decodeString latest.reverse).slot.text, start,
              lexer.position + 1⟩)) ∨
      lexer.Passes (lexer.step byte) := by
  cases under : lexer.pending with
  | none =>
      rw [step_idle under]
      exact Or.inr (startToken_passes lexer byte)
  | some pending =>
      rcases pending with ⟨shape, start, latest⟩
      cases shape with
      | string escaped =>
          cases escaped with
          | true =>
              simp only [step, under]
              exact Or.inr (.of_none rfl rfl rfl)
          | false =>
              simp only [step, under]
              by_cases quote : byte == 0x22
              · rw [if_pos quote]
                exact Or.inl ⟨start, latest, rfl, rfl⟩
              · rw [if_neg quote]
                split
                · exact Or.inr (.of_none rfl rfl rfl)
                · exact Or.inr (.of_none rfl rfl rfl)
      | number =>
          simp only [step, under]
          split
          · exact Or.inr (.of_none rfl rfl rfl)
          · split
            · exact Or.inr (.of_none rfl rfl rfl)
            · refine Or.inr (.of_token rfl rfl rfl ?_)
              intro text same
              cases same
      | literal word =>
          simp only [step, under]
          split
          · exact Or.inr (.of_none rfl rfl rfl)
          · split
            · refine Or.inr (.of_token rfl rfl rfl ?_)
              intro text same
              cases word <;> cases same
            · exact Or.inr (.of_none rfl rfl rfl)

theorem step_faithful (lexer : Lexer) (byte : UInt8) (faithful : lexer.cache.Faithful) :
    (lexer.step byte).1.cache.Faithful := by
  rcases step_cases lexer byte with ⟨start, latest, _, taken⟩ | passes
  · rw [taken]
    exact (decodeString_cache lexer latest.reverse).symm ▸ faithful.intern latest.reverse
  · rw [passes.cache]
    exact faithful

section Handled

variable {σ ε : Type} {handle : σ → Token → σ × Option ε} {raise : LexError → ε}

theorem push_faithful {lexer : Lexer} (faithful : lexer.cache.Faithful) (state : σ)
    (bytes : Bytes) : (push handle raise lexer state bytes).1.cache.Faithful :=
  push_invariant (P := fun lexer => lexer.cache.Faithful) step_faithful faithful state bytes

theorem finish_keeps (handle : σ → Token → σ × Option ε) (raise : LexError → ε) (lexer : Lexer)
    (state : σ) :
    (finish handle raise lexer state).1.cache = lexer.cache ∧
      (finish handle raise lexer state).1.slot = lexer.slot := by
  unfold finish
  cases lexer.pending with
  | none => exact ⟨rfl, rfl⟩
  | some pending =>
      rcases pending with ⟨shape, start, latest⟩
      cases shape with
      | string escaped => exact ⟨rfl, rfl⟩
      | literal word => exact ⟨rfl, rfl⟩
      | number =>
          simp only
          rcases Pending.numeral ⟨.number, start, latest⟩ with error | value
          · exact ⟨rfl, rfl⟩
          · simp only
            split <;> exact ⟨rfl, rfl⟩

end Handled

/-! ### Strings that were read before -/

/-- Two lexers are in the same place, with the same token under way. They may remember other
strings. -/
structure Same (one other : Lexer) : Prop where
  position : one.position = other.position
  pending : one.pending = other.pending
  faithful : one.cache.Faithful
  otherFaithful : other.cache.Faithful

variable {one other : Lexer}

theorem Same.refl {lexer : Lexer} (faithful : lexer.cache.Faithful) : lexer.Same lexer :=
  ⟨rfl, rfl, faithful, faithful⟩

theorem Same.startToken (same : one.Same other) (byte : UInt8) :
    (one.startToken byte).2 = (other.startToken byte).2 ∧
      (one.startToken byte).1.Same (other.startToken byte).1 := by
  obtain ⟨position, pending, slot, cache⟩ := one
  obtain ⟨_, _, otherSlot, otherCache⟩ := other
  obtain ⟨rfl, rfl, faithful, otherFaithful⟩ := same
  rw [startToken_eq, startToken_eq]
  cases Lead.of byte <;> exact ⟨rfl, rfl, rfl, faithful, otherFaithful⟩

theorem Same.step (same : one.Same other) (byte : UInt8) :
    (one.step byte).2 = (other.step byte).2 ∧ (one.step byte).1.Same (other.step byte).1 := by
  have behind := step_faithful one byte same.faithful
  have otherBehind := step_faithful other byte same.otherFaithful
  suffices moved : (one.step byte).2 = (other.step byte).2 ∧
      (one.step byte).1.position = (other.step byte).1.position ∧
      (one.step byte).1.pending = (other.step byte).1.pending from
    ⟨moved.1, moved.2.1, moved.2.2, behind, otherBehind⟩
  have started := same.startToken byte
  have decoded := fun raw =>
    (decodeString_text same.faithful raw).trans (decodeString_text same.otherFaithful raw).symm
  obtain ⟨position, pending, slot, cache⟩ := one
  obtain ⟨_, _, otherSlot, otherCache⟩ := other
  obtain ⟨rfl, rfl, -, -⟩ := same
  cases pending with
  | none => exact ⟨started.1, started.2.position, started.2.pending⟩
  | some pending =>
      rcases pending with ⟨shape, start, latest⟩
      cases shape with
      | string escaped =>
          cases escaped with
          | true => exact ⟨rfl, rfl, rfl⟩
          | false =>
              by_cases quote : byte == 0x22
              · simp only [Lexer.step, quote, if_true, stringToken, decoded, and_self]
              · by_cases backslash : byte == 0x5C
                · simp only [Lexer.step, quote, backslash, if_true]
                  exact ⟨rfl, rfl, rfl⟩
                · simp only [Lexer.step, quote, backslash]
                  exact ⟨rfl, rfl, rfl⟩
      | number =>
          simp only [Lexer.step, extend]
          repeat' split
          all_goals exact ⟨rfl, rfl, rfl⟩
      | literal word =>
          simp only [Lexer.step, extend]
          repeat' split
          all_goals exact ⟨rfl, rfl, rfl⟩

inductive SameReading :
    List Token × Except LexError Lexer → List Token × Except LexError Lexer → Prop where
  | ok (tokens : List Token) {one other : Lexer} (same : one.Same other) :
      SameReading (tokens, .ok one) (tokens, .ok other)
  | error (tokens : List Token) (error : LexError) :
      SameReading (tokens, .error error) (tokens, .error error)

theorem Same.takeByte (same : one.Same other) (byte : UInt8) :
    SameReading (one.takeByte byte) (other.takeByte byte) := by
  have stepped := same.step byte
  unfold Lexer.takeByte
  generalize one.step byte = result at stepped ⊢
  generalize other.step byte = otherResult at stepped ⊢
  rcases result with ⟨next, outcome⟩
  rcases otherResult with ⟨last, otherOutcome⟩
  obtain ⟨rfl, behind⟩ := stepped
  cases outcome with
  | nothing => exact .ok [] behind
  | completes token => exact .ok [token] behind
  | fails error => exact .error [] error
  | precedes token =>
      have started := behind.startToken byte
      simp only
      generalize next.startToken byte = result at started ⊢
      generalize last.startToken byte = otherResult at started ⊢
      rcases result with ⟨final, outcome⟩
      rcases otherResult with ⟨otherFinal, otherOutcome⟩
      obtain ⟨rfl, further⟩ := started
      cases outcome with
      | completes second => exact .ok [token, second] further
      | _ => exact .ok [token] further

theorem Same.scan (same : one.Same other) (bytes : Bytes) :
    SameReading (one.scan bytes) (other.scan bytes) := by
  induction bytes generalizing one other with
  | nil => exact .ok [] same
  | cons byte rest ih =>
      have taken := same.takeByte byte
      rcases own : one.takeByte byte with ⟨tokens, outcome⟩
      rcases others : other.takeByte byte with ⟨otherTokens, otherOutcome⟩
      rw [own, others] at taken
      cases taken with
      | error tokens error =>
          rw [scan_cons_error own, scan_cons_error others]
          exact .error tokens error
      | @ok _ next last behind =>
          have further := ih behind
          rw [scan_cons_ok own, scan_cons_ok others]
          generalize next.scan rest = result at further ⊢
          generalize last.scan rest = otherResult at further ⊢
          rcases result with ⟨more, outcome⟩
          rcases otherResult with ⟨otherMore, otherOutcome⟩
          cases further with
          | ok more final => exact .ok (tokens ++ more) final
          | error more error => exact .error (tokens ++ more) error

theorem Same.flush (same : one.Same other) : one.flush = other.flush := by
  unfold Lexer.flush
  rw [same.pending, same.position]

theorem Same.readOn (same : one.Same other) (bytes : Bytes) :
    one.readOn bytes = other.readOn bytes := by
  have scanned := same.scan bytes
  unfold Lexer.readOn
  generalize one.scan bytes = result at scanned ⊢
  generalize other.scan bytes = otherResult at scanned ⊢
  rcases result with ⟨tokens, outcome⟩
  rcases otherResult with ⟨otherTokens, otherOutcome⟩
  cases scanned with
  | ok tokens behind => simp only [behind.flush]
  | error tokens error => rfl

section Handled

variable {σ ε : Type} (handle : σ → Token → σ × Option ε) (raise : LexError → ε)

theorem Same.push (same : one.Same other) (state : σ) (bytes : Bytes) :
    (one.push handle raise state bytes).2 = (other.push handle raise state bytes).2 ∧
      (one.push handle raise state bytes).1.Same (other.push handle raise state bytes).1 := by
  induction bytes generalizing one other state with
  | nil => exact ⟨rfl, same⟩
  | cons byte rest ih =>
      have stepped := same.step byte
      rw [Lexer.push, Lexer.push]
      generalize one.step byte = result at stepped ⊢
      generalize other.step byte = otherResult at stepped ⊢
      rcases result with ⟨next, outcome⟩
      rcases otherResult with ⟨last, otherOutcome⟩
      obtain ⟨rfl, behind⟩ := stepped
      cases outcome with
      | nothing => exact ih behind state
      | fails error => exact ⟨rfl, behind⟩
      | completes token =>
          simp only
          rcases handle state token with ⟨after, _ | error⟩
          · exact ih behind after
          · exact ⟨rfl, behind⟩
      | precedes token =>
          have started := behind.startToken byte
          simp only
          rcases handle state token with ⟨after, _ | error⟩
          · generalize next.startToken byte = result at started ⊢
            generalize last.startToken byte = otherResult at started ⊢
            rcases result with ⟨final, outcome⟩
            rcases otherResult with ⟨otherFinal, otherOutcome⟩
            obtain ⟨rfl, further⟩ := started
            cases outcome with
            | completes second =>
                simp only
                rcases handle after second with ⟨final, _ | error⟩
                · exact ih further final
                · exact ⟨rfl, further⟩
            | _ => exact ih further after
          · exact ⟨rfl, behind⟩

theorem Same.finish (same : one.Same other) (state : σ) :
    (one.finish handle raise state).2 = (other.finish handle raise state).2 ∧
      (one.finish handle raise state).1.Same (other.finish handle raise state).1 := by
  obtain ⟨position, pending, slot, cache⟩ := one
  obtain ⟨_, _, otherSlot, otherCache⟩ := other
  obtain ⟨rfl, rfl, faithful, otherFaithful⟩ := same
  cases pending with
  | none => exact ⟨rfl, rfl, rfl, faithful, otherFaithful⟩
  | some pending =>
      rcases pending with ⟨shape, start, latest⟩
      cases shape with
      | string escaped => exact ⟨rfl, rfl, rfl, faithful, otherFaithful⟩
      | literal word => exact ⟨rfl, rfl, rfl, faithful, otherFaithful⟩
      | number =>
          simp only [Lexer.finish]
          rcases Pending.numeral ⟨.number, start, latest⟩ with error | value
          · exact ⟨rfl, rfl, rfl, faithful, otherFaithful⟩
          · simp only
            rcases handle state ⟨.number value, start, position⟩ with ⟨after, _ | error⟩ <;>
              exact ⟨rfl, rfl, rfl, faithful, otherFaithful⟩

end Handled

theorem scan_faithful {lexer next : Lexer} {bytes : Bytes} {tokens : List Token}
    (faithful : lexer.cache.Faithful) (scanned : lexer.scan bytes = (tokens, .ok next)) :
    next.cache.Faithful := by
  have same := (Same.refl faithful).scan bytes
  rw [scanned] at same
  cases same with
  | ok tokens behind => exact behind.faithful

/-! ### Lexers in use -/

/-- The lexers that can come up: a new one, and those that any use leaves behind, errors
included. -/
inductive Reached : Lexer → Prop where
  | new (capacity lengthBound : Nat) : Reached (Lexer.new (StringCache.new capacity lengthBound))
  | push {σ ε : Type} (handle : σ → Token → σ × Option ε) (raise : LexError → ε) {lexer : Lexer}
      (reached : Reached lexer) (state : σ) (bytes : Bytes) :
      Reached (lexer.push handle raise state bytes).1
  | pull {lexer : Lexer} (reached : Reached lexer) (limit : Nat) (bytes : Bytes)
      (latest : List Token) : Reached (lexer.pull limit bytes latest).1
  | finish {σ ε : Type} (handle : σ → Token → σ × Option ε) (raise : LexError → ε) {lexer : Lexer}
      (reached : Reached lexer) (state : σ) : Reached (lexer.finish handle raise state).1
  | reset {lexer : Lexer} (reached : Reached lexer) : Reached lexer.reset

theorem pull_faithful {lexer : Lexer} (faithful : lexer.cache.Faithful) (limit : Nat)
    (bytes : Bytes) (latest : List Token) :
    (lexer.pull limit bytes latest).1.cache.Faithful :=
  pull_invariant (P := fun lexer => lexer.cache.Faithful) step_faithful faithful limit bytes latest

theorem Reached.faithful {lexer : Lexer} (reached : lexer.Reached) : lexer.cache.Faithful := by
  induction reached with
  | new capacity lengthBound => exact StringCache.faithful_new capacity lengthBound
  | push handle raise _ state bytes ih => exact push_faithful ih state bytes
  | pull _ limit bytes latest ih => exact pull_faithful ih limit bytes latest
  | finish handle raise _ state ih =>
      rw [(finish_keeps handle raise _ state).1]
      exact ih
  | reset _ ih => exact ih

theorem Same.new (capacity lengthBound otherCapacity otherLengthBound : Nat) :
    (Lexer.new (StringCache.new capacity lengthBound)).Same
      (Lexer.new (StringCache.new otherCapacity otherLengthBound)) :=
  ⟨rfl, rfl, StringCache.faithful_new capacity lengthBound,
    StringCache.faithful_new otherCapacity otherLengthBound⟩

theorem Same.reset {lexer : Lexer} (faithful : lexer.cache.Faithful)
    (capacity lengthBound : Nat) :
    lexer.reset.Same (Lexer.new (StringCache.new capacity lengthBound)) :=
  ⟨rfl, rfl, faithful, StringCache.faithful_new capacity lengthBound⟩

end Lexer
end JsonProjection
