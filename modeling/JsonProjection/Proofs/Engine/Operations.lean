import JsonProjection.Proofs.Engine.Reached

/-!
What an engine shows to its user.

A user sees the answers to the operations and a few figures behind each. None of it depends on the
string cache, and nothing of it on what was done before the last reset. A run starts with a reset
of its own.
-/

namespace JsonProjection.Engine

/-- What a user can do with an engine. A chunk is fed in the same way whether or not the engine
shares its bytes. -/
inductive Operation where
  | feed (chunk : Bytes)
  | finish
  | take
  | reset
  | run (source : Bytes)
  | execute (source : Bytes)
  deriving DecidableEq, Repr

inductive Answer where
  | done (error? : Option DocumentError)
  | taken (found : List Match)
  | document (outcome : Except DocumentError Document)
  | value (outcome : Except DocumentError (Option Json.Value))

def perform (engine : Engine) : Operation → Engine × Answer
  | .feed chunk => ((engine.feed chunk).1, .done (engine.feed chunk).2)
  | .finish => (engine.finish.1, .done engine.finish.2)
  | .take => (engine.take.2, .taken engine.take.1)
  | .reset => (engine.reset, .done none)
  | .run source => ((engine.run source).1, .document (engine.run source).2)
  | .execute source => ((engine.execute source).1, .value (engine.execute source).2)

def after (engine : Engine) (operations : List Operation) : Engine :=
  operations.foldl (fun engine operation => (engine.perform operation).1) engine

/-- What is seen of an operation: its answer, and the figures behind it. -/
structure Observation where
  answer : Answer
  depth : Nat
  position : Nat
  counts : Counts

def observe (engine : Engine) : List Operation → List Observation
  | [] => []
  | operation :: rest =>
    let (next, answer) := engine.perform operation
    ⟨answer, next.depth, next.lexer.position, next.counts⟩ :: next.observe rest

/-! ### The cache does not show -/

/-- Two engines that differ at most in what their caches hold and in the text of the last string. -/
structure Same (one other : Engine) : Prop where
  plan : one.plan = other.plan
  lexer : one.lexer.Same other.lexer
  walker : one.walker = other.walker
  processed : one.processed = other.processed

variable {engine one other : Engine}

theorem Same.feed (same : one.Same other) (chunk : Bytes) :
    (one.feed chunk).2 = (other.feed chunk).2 ∧ (one.feed chunk).1.Same (other.feed chunk).1 := by
  obtain ⟨plan, lexer, walker, processed⟩ := one
  obtain ⟨_, otherLexer, _, _⟩ := other
  obtain ⟨rfl, inStep, rfl, rfl⟩ := same
  obtain ⟨results, behind⟩ := inStep.push
    (handle plan ⟨chunk.toByteArray, lexer.position⟩) .lex walker chunk
  unfold Engine.feed
  simp only [← show lexer.position = otherLexer.position from inStep.position]
  generalize lexer.push _ _ walker chunk = result at results behind ⊢
  generalize otherLexer.push _ _ walker chunk = otherResult at results behind ⊢
  rcases result with ⟨last, result⟩
  rcases otherResult with ⟨otherLast, otherResult⟩
  obtain rfl : result = otherResult := results
  have pending : last.pendingStart? = otherLast.pendingStart? := by
    unfold Lexer.pendingStart?
    rw [behind.pending]
  refine ⟨rfl, rfl, behind, ?_, rfl⟩
  simp only [pending]

theorem Same.finish (same : one.Same other) :
    one.finish.2 = other.finish.2 ∧ one.finish.1.Same other.finish.1 := by
  obtain ⟨plan, lexer, walker, processed⟩ := one
  obtain ⟨_, otherLexer, _, _⟩ := other
  obtain ⟨rfl, inStep, rfl, rfl⟩ := same
  obtain ⟨results, behind⟩ := inStep.finish
    (handle plan ⟨ByteArray.empty, lexer.position⟩) .lex walker
  unfold Engine.finish
  simp only [← show lexer.position = otherLexer.position from inStep.position]
  exact ⟨congrArg (·.2) results, rfl, behind, congrArg (·.1) results, rfl⟩

theorem Same.reset (plan : one.plan = other.plan) (faithful : one.lexer.cache.Faithful)
    (otherFaithful : other.lexer.cache.Faithful) : one.reset.Same other.reset :=
  ⟨plan, ⟨rfl, rfl, faithful, otherFaithful⟩, rfl, rfl⟩

theorem Same.run (plan : one.plan = other.plan) (faithful : one.lexer.cache.Faithful)
    (otherFaithful : other.lexer.cache.Faithful) (source : Bytes) :
    (one.run source).2 = (other.run source).2 ∧ (one.run source).1.Same (other.run source).1 := by
  have start : one.single.Same other.single :=
    ⟨plan, ⟨rfl, rfl, faithful, otherFaithful⟩, rfl, rfl⟩
  obtain ⟨fed, behind⟩ := start.feed source
  unfold Engine.run
  rcases feeding : one.single.feed source with ⟨middle, error?⟩
  rcases otherFeeding : other.single.feed source with ⟨otherMiddle, otherError?⟩
  rw [feeding, otherFeeding] at fed behind
  obtain rfl : error? = otherError? := fed
  cases error? with
  | some error => exact ⟨rfl, behind⟩
  | none =>
      obtain ⟨ended, final⟩ := behind.finish
      simp only
      rcases finishing : middle.finish with ⟨last, error?⟩
      rcases otherFinishing : otherMiddle.finish with ⟨otherLast, otherError?⟩
      rw [finishing, otherFinishing] at ended final
      obtain rfl : error? = otherError? := ended
      cases error? with
      | some error => exact ⟨rfl, final⟩
      | none =>
          have plan : last.plan = otherLast.plan := final.plan
          have walker : last.walker = otherLast.walker := final.walker
          have processed : last.processed = otherLast.processed := final.processed
          simp only [Engine.take, counts, plan, walker, processed, true_and]
          exact ⟨rfl, final.lexer, rfl, rfl⟩

theorem Same.perform (same : one.Same other) (operation : Operation) :
    (one.perform operation).2 = (other.perform operation).2 ∧
      (one.perform operation).1.Same (other.perform operation).1 := by
  have faithful := same.lexer.faithful
  have otherFaithful := same.lexer.otherFaithful
  cases operation with
  | feed chunk =>
      obtain ⟨results, behind⟩ := same.feed chunk
      exact ⟨congrArg Answer.done results, behind⟩
  | finish =>
      obtain ⟨results, behind⟩ := same.finish
      exact ⟨congrArg Answer.done results, behind⟩
  | take =>
      refine ⟨?_, same.plan, same.lexer, ?_, same.processed⟩
      · simp only [Engine.perform, Engine.take, same.walker]
      · simp only [Engine.perform, Engine.take, same.walker]
  | reset => exact ⟨rfl, .reset same.plan faithful otherFaithful⟩
  | run source =>
      obtain ⟨results, behind⟩ := Same.run same.plan faithful otherFaithful source
      exact ⟨congrArg Answer.document results, behind⟩
  | execute source =>
      obtain ⟨results, behind⟩ := Same.run same.plan faithful otherFaithful source
      refine ⟨?_, behind⟩
      simp only [Engine.perform, Engine.execute, results]

theorem perform_keeps (engine : Engine) (operation : Operation) :
    engine.Keeps (engine.perform operation).1 := by
  cases operation with
  | feed chunk => exact engine.feed_keeps chunk
  | finish => exact engine.finish_keeps
  | take => exact ⟨rfl, fun faithful => faithful⟩
  | reset => exact ⟨rfl, fun faithful => faithful⟩
  | run source => exact engine.run_keeps source
  | execute source => exact engine.run_keeps source

theorem after_keeps (engine : Engine) (operations : List Operation) :
    engine.Keeps (engine.after operations) := by
  induction operations generalizing engine with
  | nil => exact ⟨rfl, fun faithful => faithful⟩
  | cons operation rest ih => exact (engine.perform_keeps operation).trans (ih _)

/-- Nothing that a user sees tells two such engines apart. -/
theorem Same.observe (same : one.Same other) (operations : List Operation) :
    one.observe operations = other.observe operations := by
  induction operations generalizing one other with
  | nil => rfl
  | cons operation rest ih =>
      obtain ⟨answers, behind⟩ := same.perform operation
      rw [Engine.observe, Engine.observe]
      simp only [answers, ih behind, Engine.depth, counts, behind.walker, behind.lexer.position,
        behind.processed]

/-! ### A reset forgets -/

theorem run_eq_new (faithful : engine.lexer.cache.Faithful) {options : EngineOptions}
    (mode : options.mode = engine.plan.mode) (source : Bytes) :
    (engine.run source).2 = ((new engine.plan.group options).run source).2 := by
  have plan : engine.plan = (new engine.plan.group options).plan := by
    rw [new, mode]
  exact (Same.run plan faithful
    (StringCache.faithful_new options.cacheCapacity options.cacheLengthBound) source).1

/-- Behind a reset, engines with one selection and one mode show the same from then on, whatever
their caches and whatever was done with them. A run needs no reset in front of it. -/
theorem observe_reset (group : Group) (mode : EmitMode)
    (capacity lengthBound capacity' lengthBound' : Nat) (before before' : List Operation) :
    let one := (new group ⟨mode, capacity, lengthBound⟩).after before
    let other := (new group ⟨mode, capacity', lengthBound'⟩).after before'
    (∀ operations, one.reset.observe operations = other.reset.observe operations) ∧
      ∀ source operations,
        one.observe (.run source :: operations) =
          other.reset.observe (.run source :: operations) ∧
        one.observe (.execute source :: operations) =
          other.reset.observe (.execute source :: operations) := by
  intro one other
  have oneKept := (new group ⟨mode, capacity, lengthBound⟩).after_keeps before
  have otherKept := (new group ⟨mode, capacity', lengthBound'⟩).after_keeps before'
  have oneFaithful := oneKept.faithful (StringCache.faithful_new capacity lengthBound)
  have otherFaithful := otherKept.faithful (StringCache.faithful_new capacity' lengthBound')
  have plan : one.plan = other.plan := oneKept.plan.trans otherKept.plan.symm
  have same : one.reset.Same other.reset := .reset plan oneFaithful otherFaithful
  exact ⟨same.observe, fun source operations =>
    ⟨same.observe (.run source :: operations), same.observe (.execute source :: operations)⟩⟩

end JsonProjection.Engine
