import JsonProjection.Proofs.Token.Layout

/-!
How many bytes it takes to read a token.

A token is handed on with its last byte. Only a number is not known to end there: it is handed on
with the byte behind it, or at the end of the source.
-/

namespace JsonProjection

/-- How many bytes of a source have to be read until a token is handed on. -/
def Token.ready (token : Token) : Nat :=
  match token.kind with
  | .number _ => token.span.stop + 1
  | _ => token.span.stop

theorem Token.ready_of_other {token : Token} (other : ∀ value, token.kind ≠ .number value) :
    token.ready = token.span.stop := by
  unfold ready
  split
  · rename_i value kind
    exact absurd kind (other value)
  · rfl

namespace Lexer

variable {lexer next : Lexer} {byte : UInt8} {tokens : List Token}

/-! ### One byte -/

theorem startToken_ready (lexer : Lexer) (byte : UInt8) :
    ∀ token, (lexer.startToken byte).2 = .completes token →
      token.ready = lexer.position + 1 := by
  intro token completes
  rw [startToken_eq] at completes
  cases lead : Lead.of byte with
  | mark kind =>
      rw [lead] at completes
      cases completes
      exact Token.ready_of_other fun value same =>
        Lead.of_ne_number byte value (by rw [lead]; exact congrArg Lead.mark same)
  | begin shape bytes =>
      rw [lead] at completes
      cases completes
  | ignored =>
      rw [lead] at completes
      cases completes

theorem step_ready {pending : Pending} (under : lexer.pending = some pending) (byte : UInt8) :
    ∀ token, (lexer.step byte).2 = .completes token ∨ (lexer.step byte).2 = .precedes token →
      token.ready = lexer.position + 1 := by
  intro token ends
  unfold step at ends
  rw [under] at ends
  rcases pending with ⟨shape, start, latest⟩
  cases shape with
  | string escaped =>
      cases escaped with
      | true => rcases ends with ends | ends <;> cases ends
      | false =>
          simp only at ends
          split at ends
          · rcases ends with ends | ends <;> cases ends
            rfl
          · split at ends <;> rcases ends with ends | ends <;> cases ends
  | number =>
      simp only at ends
      split at ends
      · rcases ends with ends | ends <;> cases ends
      · split at ends <;> rcases ends with ends | ends <;> cases ends
        rfl
  | literal word =>
      simp only at ends
      split at ends
      · rcases ends with ends | ends <;> cases ends
      · split at ends <;> rcases ends with ends | ends <;> cases ends
        cases word <;> rfl

theorem takeByte_ready (taken : lexer.takeByte byte = (tokens, .ok next)) :
    ∀ token ∈ tokens, token.ready = lexer.position + 1 := by
  have started := startToken_ready lexer byte
  cases under : lexer.pending with
  | none =>
      have same : lexer.step byte = lexer.startToken byte := by
        simp only [step, under]
      rw [takeByte, same] at taken
      rw [startToken_eq] at taken started
      cases lead : Lead.of byte <;> rw [lead] at taken started <;> cases taken
      · exact List.forall_mem_singleton.mpr (started _ rfl)
      · exact fun token member => absurd member List.not_mem_nil
      · exact fun token member => absurd member List.not_mem_nil
  | some pending =>
      have stepped := step_pending under byte
      have ready := step_ready under byte
      unfold takeByte at taken
      rcases stepEq : lexer.step byte with ⟨middle, outcome⟩
      rw [stepEq] at taken stepped ready
      cases outcome with
      | fails error => cases taken
      | nothing =>
          cases taken
          exact fun token member => absurd member List.not_mem_nil
      | completes token =>
          cases taken
          exact List.forall_mem_singleton.mpr (ready token (Or.inl rfl))
      | precedes token =>
          -- The byte behind the number may be a token by itself.
          have number := ready token (Or.inr rfl)
          have further := startToken_ready middle byte
          rw [stepped.1] at further
          simp only at taken
          rcases begun : middle.startToken byte with ⟨last, outcome⟩
          rw [begun] at taken further
          cases outcome with
          | completes second =>
              cases taken
              exact List.forall_mem_cons.mpr
                ⟨number, List.forall_mem_singleton.mpr (further second rfl)⟩
          | _ =>
              cases taken
              exact List.forall_mem_singleton.mpr number

/-! ### Many bytes -/

theorem scan_ready (sound : lexer.Sound) {bytes : Bytes}
    (scanned : lexer.scan bytes = (tokens, .ok next)) :
    ∀ token ∈ tokens, lexer.position < token.ready ∧
      token.ready ≤ lexer.position + bytes.length := by
  induction bytes generalizing lexer tokens with
  | nil =>
      cases scanned
      exact fun token member => absurd member List.not_mem_nil
  | cons byte rest ih =>
      rcases taken : lexer.takeByte byte with ⟨own, error | middle⟩
      · rw [scan_cons_error taken] at scanned
        cases scanned
      · rw [scan_cons_ok taken] at scanned
        have advance := takeByte_advance sound taken
        have ready := takeByte_ready taken
        rcases behind : middle.scan rest with ⟨others, outcome⟩
        rw [behind] at scanned
        cases scanned
        have later := ih advance.sound behind
        rw [advance.position] at later
        rw [List.length_cons]
        intro token member
        rcases List.mem_append.mp member with here | there
        · have own := ready token here
          omega
        · have bounds := later token there
          omega

theorem flush_ready (lexer : Lexer) : ∀ token ∈ lexer.flush.1, lexer.position < token.ready := by
  unfold flush
  cases lexer.pending with
  | none => exact fun token member => absurd member List.not_mem_nil
  | some pending =>
      rcases pending with ⟨shape, start, latest⟩
      cases shape with
      | string escaped => exact fun token member => absurd member List.not_mem_nil
      | literal word => exact fun token member => absurd member List.not_mem_nil
      | number =>
          simp only
          split
          · exact fun token member => absurd member List.not_mem_nil
          · exact List.forall_mem_singleton.mpr (Nat.lt_succ_self lexer.position)

theorem readOn_ready (sound : lexer.Sound) {bytes : Bytes}
    (read : lexer.readOn bytes = ⟨tokens, none⟩) :
    ∀ token ∈ tokens, lexer.position < token.ready := by
  unfold readOn at read
  rcases scanned : lexer.scan bytes with ⟨own, error | middle⟩
  · rw [scanned] at read
    cases read
  · rw [scanned] at read
    obtain ⟨rfl, -⟩ := Lexing.mk.inj read
    have position := (scan_advance sound scanned).position
    refine List.forall_mem_append.mpr ⟨fun token member => ?_, fun token member => ?_⟩
    · exact (scan_ready sound scanned token member).1
    · have flushed := flush_ready middle token member
      omega

end Lexer

/-- Cutting a source in two cuts its tokens in two: those that are ready within the first part, and
those that are not. -/
theorem Lexing.of_append {front back : Bytes} {tokens : List Token}
    (lexed : Lexing.of (front ++ back) = ⟨tokens, none⟩) :
    ∃ first second next, tokens = first ++ second ∧
      (Lexer.new (StringCache.new 0 0)).scan front = (first, .ok next) ∧
      (∀ token ∈ first, token.ready ≤ front.length) ∧
      ∀ token ∈ second, front.length < token.ready := by
  have sound := Lexer.sound_new (StringCache.new 0 0)
  rcases scanned : (Lexer.new (StringCache.new 0 0)).scan front with ⟨first, error | next⟩
  · rw [Lexing.of, Lexer.readOn, Lexer.scan_append_error scanned] at lexed
    cases lexed
  · rw [Lexing.of, Lexer.readOn_append_ok scanned] at lexed
    have advance := Lexer.scan_advance sound scanned
    have position : next.position = front.length := advance.position.trans (Nat.zero_add _)
    rcases read : next.readOn back with ⟨second, error?⟩
    rw [read] at lexed
    cases lexed
    refine ⟨first, second, next, rfl, rfl, fun token member => ?_, fun token member => ?_⟩
    · have bound := (Lexer.scan_ready sound scanned token member).2
      exact Nat.le_trans bound (Nat.le_of_eq (Nat.zero_add _))
    · rw [← position]
      exact Lexer.readOn_ready advance.sound read token member

end JsonProjection
