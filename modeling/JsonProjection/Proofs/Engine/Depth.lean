import JsonProjection.Proofs.Engine.Chunks
import JsonProjection.Proofs.Walk.Depth
import JsonProjection.Proofs.Walk.Refusal

/-!
How deep an engine is in its source.

Without an error the open brackets that an engine counts are those of the tokens so far. They are a
matter of the source alone, so that a source that ends inside a container does so in every plan and
in any chunks, unless an error strikes in front of its end.
-/

namespace JsonProjection

open Walk

/-- The offset of the token at which an error strikes. Errors at the end of the input strike at
none. -/
def DocumentError.place? : DocumentError → Option Nat
  | .lex error => some error.offset
  | .structural error => error.refusedAt?

namespace Plan

variable {plan : Plan} {source : Bytes} {single : Bool}

/-- What reading a source comes to is an error at a place inside it, or is settled at its end with
the brackets of its tokens. -/
theorem read_end (plan : Plan) (single : Bool) (source : Bytes) :
    (∃ error place, (plan.read single source).2 = some error ∧ error.place? = some place ∧
        place < source.length) ∨
      ∃ last : Walker, (Lexing.of source).error? = none ∧
        (last.openBrackets : Int) = Token.balance (Lexing.of source).tokens ∧
        (plan.read single source).2 = (last.endOfInput source.length).2.map .structural := by
  have inner := Lexing.inner source
  rcases plan.read_cases single source with
    ⟨before, token, after, middle, next, error, split, walked, pushed, read⟩ | ⟨last, walked, read⟩
  · have member : token ∈ (Lexing.of source).tokens := by
      rw [split]
      exact List.mem_append_right before List.mem_cons_self
    have inside := (Lexing.chain source).mem member
    refine Or.inl ⟨.structural error, token.span.start, ?_, ?_, by omega⟩
    · rw [read]
    · exact Walker.push_offset (inner token member) pushed
  · cases lexical : (Lexing.of source).error? with
    | some error =>
        refine Or.inl ⟨.lex error, error.offset, ?_, rfl, Lexing.offset_lt lexical⟩
        rw [read, lexical]
    | none =>
        have depth := Walker.walk_depth (Walker.sound_new single) inner walked
        refine Or.inr ⟨last, rfl, ?_, ?_⟩
        · rw [depth]
          exact Int.zero_add _
        · rw [read, lexical]

end Plan

namespace Engine

/-- The engines that the bytes of a source and the tokens seen in them lead to from the last reset
without an error. A run takes the same steps, with just one root value wanted. -/
inductive Clean : Engine → Bytes → List Token → Prop where
  | reset {engine : Engine} (reached : engine.Reached) : Clean engine.reset [] []
  | single {engine : Engine} (reached : engine.Reached) : Clean engine.single [] []
  | feed {engine next : Engine} {bytes chunk : Bytes} {tokens : List Token}
      (clean : Clean engine bytes tokens) (fed : engine.feed chunk = (next, none)) :
      Clean next (bytes ++ chunk) (tokens ++ (engine.lexer.scan chunk).1)
  | finish {engine next : Engine} {bytes : Bytes} {tokens : List Token}
      (clean : Clean engine bytes tokens) (ended : engine.finish = (next, none)) :
      Clean next bytes (tokens ++ engine.lexer.flush.1)
  | take {engine : Engine} {bytes : Bytes} {tokens : List Token}
      (clean : Clean engine bytes tokens) : Clean engine.take.2 bytes tokens

/-! ### One operation -/

variable {engine next : Engine} {chunk : Bytes}

/-- A chunk that is fed without an error falls into tokens, and the walk gets through them. -/
theorem feed_walk (fed : engine.feed chunk = (next, none)) :
    ∃ tokens walker, engine.lexer.scan chunk = (tokens, .ok next.lexer) ∧
      engine.walker.walk engine.plan (engine.window chunk) tokens = (walker, none) ∧
      next.walker =
        walker.endChunk engine.plan.mode (engine.window chunk) next.lexer.pendingStart? := by
  obtain ⟨stopped, scanned⟩ := engine.feed_scan chunk
  rw [fed] at scanned
  rcases split : engine.lexer.scan chunk with ⟨tokens, error | last⟩
  · rw [split] at scanned
    rcases walked : engine.walker.walk engine.plan (engine.window chunk) tokens with
      ⟨walker, _ | refusal⟩
    · simp only [walked] at scanned
      cases scanned
    · simp only [walked] at scanned
      cases scanned
  · rw [split] at scanned
    rcases walked : engine.walker.walk engine.plan (engine.window chunk) tokens with
      ⟨walker, _ | refusal⟩
    · simp only [walked] at scanned
      cases scanned
      exact ⟨tokens, walker, rfl, walked, rfl⟩
    · simp only [walked] at scanned
      cases scanned

theorem finish_scan (engine : Engine) :
    ∃ stopped : Lexer, engine.finish =
      match engine.walker.walk engine.plan (engine.window []) engine.lexer.flush.1,
        engine.lexer.flush.2 with
      | (walker, some error), _ =>
        (⟨engine.plan, stopped, walker, engine.processed⟩, some (.structural error))
      | (walker, none), some error =>
        (⟨engine.plan, stopped, walker, engine.processed⟩, some (.lex error))
      | (walker, none), none =>
        (⟨engine.plan, engine.lexer.dropped, walker, engine.processed⟩,
          (walker.endOfInput engine.lexer.position).2.map .structural) := by
  obtain ⟨stopped, ended⟩ := Lexer.finish_flush
    (handle engine.plan ⟨ByteArray.empty, engine.lexer.position⟩) .lex engine.lexer engine.walker
  have dropped (flushed : engine.lexer.flush.2 = none) := Lexer.finish_dropped
    (handle engine.plan ⟨ByteArray.empty, engine.lexer.position⟩) DocumentError.lex flushed
    engine.walker
  rw [Walker.handAll_handle] at ended
  refine ⟨stopped, ?_⟩
  unfold Engine.finish
  have shown : engine.window [] = ⟨ByteArray.empty, engine.lexer.position⟩ := rfl
  rw [shown]
  rcases walked : engine.walker.walk engine.plan ⟨ByteArray.empty, engine.lexer.position⟩
    engine.lexer.flush.1 with ⟨walker, _ | error⟩
  · cases flushed : engine.lexer.flush.2 with
    | some error => simp only [ended, walked, flushed, Option.map_none]
    | none =>
        have lexer := dropped flushed
        simp only [walked, flushed, Option.map_none] at ended
        rw [ended] at lexer
        simp only [ended, handle, Walker.push, if_true, Walker.endOfInput_fst, lexer]
  · simp only [ended, walked, Option.map_some]

theorem finish_walk {error? : Option DocumentError} (ended : engine.finish = (next, error?))
    (atEnd : ∀ error ∈ error?, error.place? = none) :
    engine.lexer.flush.2 = none ∧ next.lexer = engine.lexer.dropped ∧
      engine.walker.walk engine.plan (engine.window []) engine.lexer.flush.1 =
        (next.walker, none) ∧
      error? = (next.walker.endOfInput engine.lexer.position).2.map .structural := by
  obtain ⟨stopped, scanned⟩ := engine.finish_scan
  rw [ended] at scanned
  rcases walked : engine.walker.walk engine.plan (engine.window []) engine.lexer.flush.1 with
    ⟨walker, _ | refusal⟩
  · cases flushed : engine.lexer.flush.2 with
    | some error =>
        simp only [walked, flushed] at scanned
        cases scanned
        cases atEnd _ rfl
    | none =>
        simp only [walked, flushed] at scanned
        cases scanned
        exact ⟨rfl, rfl, rfl, rfl⟩
  · simp only [walked] at scanned
    cases scanned
    obtain ⟨before, token, after, middle, split, _, pushed⟩ := Walker.walk_eq_some walked
    have inner : token.kind ≠ .endOfInput := by
      apply Lexer.flush_inner engine.lexer
      rw [split]
      exact List.mem_append_right before List.mem_cons_self
    have placed := Walker.push_offset inner pushed
    rw [show refusal.refusedAt? = none from atEnd _ rfl] at placed
    cases placed

/-! ### All operations -/

/-- What holds of an engine that no error struck, behind some bytes and tokens. -/
structure Counted (engine : Engine) (bytes : Bytes) (tokens : List Token) : Prop where
  faithful : engine.lexer.cache.Faithful
  lexer : engine.lexer.Sound
  walker : engine.walker.Sound
  position : engine.lexer.position = bytes.length
  depth : (engine.walker.openBrackets : Int) = Token.balance tokens
  alike : ∀ seen next, (Lexer.new (StringCache.new 0 0)).scan bytes = (seen, .ok next) →
    engine.lexer.Alike next ∧ Token.balance tokens = Token.balance seen

theorem Counted.of_walker {bytes : Bytes} {tokens : List Token} {walker : Walker}
    (counted : engine.Counted bytes tokens) (stack : walker.stack = engine.walker.stack)
    (skip : walker.skip = engine.walker.skip) (raw : walker.raw = engine.walker.raw) :
    Counted { engine with walker } bytes tokens := by
  refine ⟨counted.faithful, counted.lexer, counted.walker.congr stack skip raw, counted.position,
    ?_, counted.alike⟩
  rw [← counted.depth, Walker.openBrackets, Walker.skipDepth, Walker.captureDepth, stack, skip, raw]
  rfl

theorem Reached.counted {engine : Engine} (reached : engine.Reached) :
    engine.reset.Counted [] [] := by
  refine ⟨reached.healthy.2, Lexer.sound_reset _, Walker.sound_new false, rfl, rfl, ?_⟩
  intro seen next scanned
  cases scanned
  exact ⟨Or.inl (.reset reached.healthy.2 0 0), rfl⟩

theorem Counted.feed {bytes : Bytes} {tokens : List Token} (counted : engine.Counted bytes tokens)
    (fed : engine.feed chunk = (next, none)) :
    next.Counted (bytes ++ chunk) (tokens ++ (engine.lexer.scan chunk).1) := by
  obtain ⟨own, walker, scanned, walked, same⟩ := feed_walk fed
  have advance := Lexer.scan_advance counted.lexer scanned
  have depth := Walker.walk_depth counted.walker advance.inner walked
  have through : Counted { next with walker } (bytes ++ chunk) (tokens ++ own) := by
    refine ⟨Lexer.scan_faithful counted.faithful scanned, advance.sound,
      Walker.walk_sound counted.walker advance.inner walked, ?_, ?_, ?_⟩
    · rw [advance.position, counted.position, List.length_append]
    · rw [depth, counted.depth, Token.balance_append]
    · intro seen last whole
      rcases front : (Lexer.new (StringCache.new 0 0)).scan bytes with ⟨first, error | middle⟩
      · rw [Lexer.scan_append_error front] at whole
        cases whole
      · rw [Lexer.scan_append_ok front] at whole
        rcases behind : middle.scan chunk with ⟨second, outcome⟩
        rw [behind] at whole
        cases whole
        obtain ⟨alike, before⟩ := counted.alike first middle front
        obtain ⟨further, own⟩ := alike.scan scanned behind
        rw [Token.balance_append, Token.balance_append, before, own]
        exact ⟨further, rfl⟩
  have ended := Walker.endChunk_withCarry walker engine.plan.mode (engine.window chunk)
    next.lexer.pendingStart? []
  rw [← same] at ended
  rw [scanned]
  exact through.of_walker (congrArg (·.stack) ended) (congrArg (·.skip) ended)
    (congrArg (·.raw) ended)

theorem Counted.finish {bytes : Bytes} {tokens : List Token}
    (counted : engine.Counted bytes tokens) {error? : Option DocumentError}
    (ended : engine.finish = (next, error?))
    (atEnd : ∀ error ∈ error?, error.place? = none) :
    next.Counted bytes (tokens ++ engine.lexer.flush.1) ∧
      error? = (next.walker.endOfInput bytes.length).2.map .structural := by
  obtain ⟨flushed, lexer, walked, same⟩ := finish_walk ended atEnd
  have inner := Lexer.flush_inner engine.lexer
  have depth := Walker.walk_depth counted.walker inner walked
  rw [counted.position] at same
  refine ⟨⟨?_, ?_, Walker.walk_sound counted.walker inner walked, ?_, ?_, ?_⟩, same⟩
  · rw [lexer]
    exact counted.faithful
  · rw [lexer]
    rintro start ⟨⟩
  · rw [lexer]
    exact counted.position
  · rw [depth, counted.depth, Token.balance_append]
  · intro seen last scanned
    obtain ⟨alike, balance⟩ := counted.alike seen last scanned
    rw [lexer, Token.balance_append, Lexer.flush_balance, Int.add_zero]
    exact ⟨alike.dropped (Lexer.numeric_of_flush flushed), balance⟩

theorem Clean.counted {bytes : Bytes} {tokens : List Token} (clean : engine.Clean bytes tokens) :
    engine.Counted bytes tokens := by
  induction clean with
  | reset reached => exact reached.counted
  | single reached => exact reached.counted.of_walker rfl rfl rfl
  | feed _ fed ih => exact ih.feed fed
  | finish _ ended ih => exact (ih.finish ended fun error none => nomatch none).1
  | take _ ih => exact ih.of_walker rfl rfl rfl

/-- A run that succeeds leaves such an engine. -/
theorem Reached.run_clean {engine next : Engine} (reached : engine.Reached) {source : Bytes}
    {document : Document} (run : engine.run source = (next, .ok document)) :
    ∃ tokens, next.Clean source tokens := by
  unfold Engine.run at run
  rcases fed : engine.single.feed source with ⟨middle, _ | error⟩
  · rcases ended : middle.finish with ⟨last, _ | error⟩
    · simp only [fed, ended] at run
      cases run
      exact ⟨_, (((Clean.single reached).feed fed).finish ended).take⟩
    · simp only [fed, ended] at run
      cases run
  · simp only [fed] at run
    cases run

/-! ### Sources that end too early -/

theorem Counted.lexing {bytes : Bytes} {tokens : List Token} (counted : engine.Counted bytes tokens)
    (lexical : (Lexing.of bytes).error? = none) :
    Token.balance (Lexing.of bytes).tokens = Token.balance tokens := by
  unfold Lexing.of Lexer.readOn at lexical ⊢
  rcases scanned : (Lexer.new (StringCache.new 0 0)).scan bytes with ⟨seen, error | last⟩
  · rw [scanned] at lexical
    cases lexical
  · rw [(counted.alike seen last scanned).2]
    simp only [Token.balance_append, Lexer.flush_balance, Int.add_zero]

theorem Counted.truncated {bytes : Bytes} {tokens : List Token}
    (counted : engine.Counted bytes tokens) {depth offset : Nat}
    (ended : engine.finish = (next, some (.structural (.truncated depth offset)))) :
    next.Counted bytes (tokens ++ engine.lexer.flush.1) ∧
      (depth : Int) = Token.balance (tokens ++ engine.lexer.flush.1) ∧ offset = bytes.length ∧
      0 < depth := by
  obtain ⟨behind, same⟩ := counted.finish ended fun error placed => by
    cases placed
    rfl
  obtain ⟨error, told, wrapped⟩ := Option.map_eq_some_iff.mp same.symm
  cases wrapped
  rcases Walker.endOfInput_offset told with ⟨truncated, opened⟩ | ⟨empty, _⟩
  · cases truncated
    exact ⟨behind, behind.depth, rfl, opened⟩
  · cases empty

/-- A source whose tokens leave brackets open ends inside a container at their depth, unless an
error strikes at a place in front of its end. -/
theorem Reached.account_truncated {engine : Engine} (reached : engine.Reached)
    {chunks : List Bytes} {depth : Nat} (opened : 0 < depth)
    (balance : (Lexing.of chunks.flatten).error? = none →
      (depth : Int) = Token.balance (Lexing.of chunks.flatten).tokens) :
    (engine.account chunks).error? =
        some (.structural (.truncated depth chunks.flatten.length)) ∨
      ∃ error place, (engine.account chunks).error? = some error ∧
        error.place? = some place ∧ place < chunks.flatten.length := by
  rw [reached.account_read chunks]
  rcases engine.plan.read_end false chunks.flatten with struck | ⟨last, lexical, brackets, read⟩
  · exact Or.inr struck
  · have same : last.openBrackets = depth := by
      have both := brackets.trans (balance lexical).symm
      exact Int.ofNat_inj.mp both
    refine Or.inl ?_
    rw [read, Walker.endOfInput, same, if_pos opened]
    rfl

/-- The open brackets that an engine counts on its stack, in a stretch that it passes over and in a
raw leaf are together those of the tokens since the last reset, and of the two latter there is one
at most. So a source that it finds to end inside a container ends so for every other engine and in
any chunks, at that depth and offset, or meets with an error in front of its end. -/
theorem Clean.depth_settled {bytes : Bytes} {tokens : List Token}
    (clean : engine.Clean bytes tokens) :
    ((engine.depth + engine.walker.skipDepth + engine.walker.captureDepth : Nat) : Int) =
        Token.balance tokens ∧
      (engine.walker.skip = none ∨ engine.walker.raw = none) ∧
      ∀ next depth offset,
        engine.finish = (next, some (.structural (.truncated depth offset))) →
        (depth : Int) = Token.balance (tokens ++ engine.lexer.flush.1) ∧ offset = bytes.length ∧
          ((Lexing.of bytes).error? = none →
            (depth : Int) = Token.balance (Lexing.of bytes).tokens) ∧
          ∀ other : Engine, other.Reached → ∀ chunks, chunks.flatten = bytes →
            (other.account chunks).error? = some (.structural (.truncated depth offset)) ∨
              ∃ error place, (other.account chunks).error? = some error ∧
                error.place? = some place ∧ place < bytes.length := by
  have counted := clean.counted
  refine ⟨counted.depth, counted.walker.exclusive, ?_⟩
  intro next depth offset ended
  obtain ⟨behind, balance, place, opened⟩ := counted.truncated ended
  have lexing : (Lexing.of bytes).error? = none →
      (depth : Int) = Token.balance (Lexing.of bytes).tokens := fun lexical =>
    balance.trans (behind.lexing lexical).symm
  refine ⟨balance, place, lexing, ?_⟩
  rintro other reached chunks rfl
  rw [place]
  exact reached.account_truncated opened lexing

/-- `{"a":[` ends inside two containers, one of them captured, and so it does where it is
skipped. -/
theorem depth_settled_array :
    let captures := new (Group.withField .empty "a" .leaf) (.ofMode .raw)
    let skips := new (Group.withField .empty "b" .leaf) (.ofMode .materialize)
    let fed := (captures.reset.feed [0x7B, 0x22, 0x61, 0x22, 0x3A, 0x5B]).1
    fed.depth = 1 ∧ fed.walker.captureDepth = 1 ∧ fed.walker.skip = none ∧
      fed.finish.2 = some (.structural (.truncated 2 6)) ∧
      ((skips.account [[0x7B, 0x22], [0x61, 0x22, 0x3A, 0x5B]]).error? =
          some (.structural (.truncated 2 6)) ∨
        ∃ error place, (skips.account [[0x7B, 0x22], [0x61, 0x22, 0x3A, 0x5B]]).error? =
          some error ∧ error.place? = some place ∧ place < 6) := by
  intro captures skips fed
  have reached : captures.Reached := .new (.leaf .empty "a") _
  have other : skips.Reached := .new (.leaf .empty "b") _
  have quiet : (captures.reset.feed [0x7B, 0x22, 0x61, 0x22, 0x3A, 0x5B]).2 = none := rfl
  have clean := Clean.feed (.reset reached) (Prod.ext rfl quiet)
  exact ⟨rfl, rfl, rfl, rfl, (clean.depth_settled.2.2 _ 2 6 rfl).2.2.2 skips other _ rfl⟩

end Engine
end JsonProjection
