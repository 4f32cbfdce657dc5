import JsonProjection.Proofs.Engine.Stream
import JsonProjection.Proofs.Selection.Distinct
import JsonProjection.Proofs.Walk.Single

/-!
The engines that can come up, and what they read from the start of a source.

Whatever an engine was used for, its plan is the one it was made with and its string cache changes
no text. So reading from the start depends on the plan and the source alone.
-/

namespace JsonProjection

namespace Engine

/-- The engines that can come up: a new one, and those that its operations leave behind, errors
included. -/
inductive Reached : Engine → Prop where
  | new {group : Group} (built : group.Built) (options : EngineOptions) :
      Reached (Engine.new group options)
  | feed {engine : Engine} (reached : Reached engine) (chunk : Bytes) :
      Reached (engine.feed chunk).1
  | finish {engine : Engine} (reached : Reached engine) : Reached engine.finish.1
  | take {engine : Engine} (reached : Reached engine) : Reached engine.take.2
  | reset {engine : Engine} (reached : Reached engine) : Reached engine.reset
  | run {engine : Engine} (reached : Reached engine) (source : Bytes) :
      Reached (engine.run source).1
  | execute {engine : Engine} (reached : Reached engine) (source : Bytes) :
      Reached (engine.execute source).1

/-- What no operation changes: the plan, and that the cache is faithful. -/
structure Keeps (engine next : Engine) : Prop where
  plan : next.plan = engine.plan
  faithful : engine.lexer.cache.Faithful → next.lexer.cache.Faithful

theorem Keeps.trans {engine middle next : Engine} (one : engine.Keeps middle)
    (two : middle.Keeps next) : engine.Keeps next :=
  ⟨two.plan.trans one.plan, fun faithful => two.faithful (one.faithful faithful)⟩

theorem feed_keeps (engine : Engine) (chunk : Bytes) : engine.Keeps (engine.feed chunk).1 :=
  ⟨rfl, fun faithful => Lexer.push_faithful faithful engine.walker chunk⟩

theorem finish_keeps (engine : Engine) : engine.Keeps engine.finish.1 := by
  refine ⟨rfl, fun faithful => ?_⟩
  have cache : engine.finish.1.lexer.cache = engine.lexer.cache := by
    have kept := Lexer.finish_keeps
      (handle engine.plan ⟨ByteArray.empty, engine.lexer.position⟩) DocumentError.lex
      engine.lexer engine.walker
    exact kept.1
  rw [cache]
  exact faithful

theorem run_keeps (engine : Engine) (source : Bytes) : engine.Keeps (engine.run source).1 := by
  have start : engine.Keeps engine.single := ⟨rfl, fun faithful => faithful⟩
  have fed := start.trans (engine.single.feed_keeps source)
  unfold run
  rcases feeding : engine.single.feed source with ⟨middle, _ | error⟩
  · rw [feeding] at fed
    have ended := fed.trans middle.finish_keeps
    rcases finishing : middle.finish with ⟨last, _ | error⟩
    · rw [finishing] at ended
      simp only [finishing]
      exact ⟨ended.plan, ended.faithful⟩
    · rw [finishing] at ended
      simp only [finishing]
      exact ended
  · rw [feeding] at fed
    exact fed

theorem Reached.healthy {engine : Engine} (reached : engine.Reached) :
    engine.plan.group.Built ∧ engine.lexer.cache.Faithful := by
  have kept {engine next : Engine} (keeps : engine.Keeps next)
      (healthy : engine.plan.group.Built ∧ engine.lexer.cache.Faithful) :
      next.plan.group.Built ∧ next.lexer.cache.Faithful :=
    ⟨by rw [keeps.plan]; exact healthy.1, keeps.faithful healthy.2⟩
  induction reached with
  | new built options =>
      exact ⟨built, StringCache.faithful_new options.cacheCapacity options.cacheLengthBound⟩
  | feed _ chunk ih => exact kept (feed_keeps _ chunk) ih
  | finish _ ih => exact kept (finish_keeps _) ih
  | take _ ih => exact ih
  | reset _ ih => exact ih
  | run _ source ih => exact kept (run_keeps _ source) ih
  | execute _ source ih => exact kept (run_keeps _ source) ih

theorem Reached.distinct {engine : Engine} (reached : engine.Reached) :
    engine.plan.group.Distinct :=
  reached.healthy.1.distinct

/-! ### From the start of a source -/

theorem Reached.reset_readOn {engine : Engine} (reached : engine.Reached) (source : Bytes) :
    engine.lexer.reset.readOn source = Lexing.of source :=
  (Lexer.Same.reset reached.healthy.2 0 0).readOn source

theorem Reached.reset_within {engine : Engine} (reached : engine.Reached) (source : Bytes) :
    engine.reset.Within source source :=
  ⟨Lexer.sound_reset _, reached.healthy.2, ⟨[], rfl, rfl⟩, rfl⟩

theorem Reached.single_within {engine : Engine} (reached : engine.Reached) (source : Bytes) :
    engine.single.Within source source :=
  ⟨Lexer.sound_reset _, reached.healthy.2, ⟨[], rfl, rfl⟩, rfl⟩

theorem Reached.stream_read {engine : Engine} (reached : engine.Reached) (chunks : List Bytes) :
    ((engine.reset.stream chunks).1.walker.withCarry [], (engine.reset.stream chunks).2) =
      engine.plan.read false chunks.flatten := by
  have streamed := (reached.reset_within chunks.flatten).stream
  rw [show engine.reset.lexer = engine.lexer.reset from rfl, reached.reset_readOn] at streamed
  exact streamed

/-- A run is reading the source at once, for one root value. -/
theorem Reached.run_read {engine : Engine} (reached : engine.Reached) (source : Bytes) :
    (engine.run source).2 =
      match engine.plan.read true source with
      | (_, some error) => .error error
      | (walker, none) =>
        .ok ⟨engine.plan.mode, walker.shape, walker.latest.reverse,
          ⟨walker.matched, source.length, walker.skipped⟩⟩ := by
  have within : engine.single.Within source [source].flatten := by
    rw [List.flatten_singleton]
    exact reached.single_within source
  have streamed := within.stream
  rw [List.flatten_singleton] at streamed
  have start : engine.single.plan.readOn source (engine.single.walker.withCarry [])
      (engine.single.lexer.readOn source) = engine.plan.read true source := by
    rw [show engine.single.lexer = engine.lexer.reset from rfl, reached.reset_readOn]
    rfl
  rw [start] at streamed
  rw [← streamed]
  have fedPlan := (engine.single.feed_keeps source).plan
  have fedLength : (engine.single.feed source).1.processed = 0 + source.length := rfl
  unfold Engine.run Engine.stream Engine.feedAll
  rcases feeding : engine.single.feed source with ⟨middle, _ | error⟩
  · rw [feeding] at fedPlan fedLength
    have endedPlan := middle.finish_keeps.plan
    have endedLength : middle.finish.1.processed = middle.processed := rfl
    simp only [feedAll]
    rcases finishing : middle.finish with ⟨last, _ | error⟩
    · rw [finishing] at endedPlan endedLength
      have plan : last.plan = engine.plan := endedPlan.trans fedPlan
      have length : last.processed = source.length := by
        rw [endedLength, fedLength, Nat.zero_add]
      simp only [Engine.take, counts, plan, length]
      rfl
    · rfl
  · rfl

end Engine
end JsonProjection
