import JsonProjection.Proofs.Engine.Reached

/-!
How a source is cut into chunks does not show.

Streaming a source gives the same matches, counts and error for every way of cutting it, and a run
of the whole source is streaming that ends with one root value.
-/

namespace JsonProjection

open Walk

/-! ### One root value -/

theorem Walker.endOfInput_withSingle {walker : Walker} (roots : walker.roots ≠ 0)
    (single : Bool) (offset : Nat) :
    ((walker.withSingle single).endOfInput offset).2 = (walker.endOfInput offset).2 := by
  have found : (walker.roots == 0) = false := beq_false_of_ne roots
  apply Walker.endOfInput_snd_congr
  · rfl
  · rw [show (walker.withSingle single).roots = walker.roots from rfl, found, Bool.and_false,
      Bool.and_false]

namespace Plan

variable {plan : Plan} {source : Bytes} {walker : Walker}

theorem read_ok {single : Bool} (read : plan.read single source = (walker, none)) :
    Walker.walk plan (Window.whole source) { Walker.new with single }
        (Lexing.of source).tokens = (walker, none) ∧
      (Lexing.of source).error? = none ∧ (walker.endOfInput source.length).2 = none := by
  unfold Plan.read readOn at read
  rcases walked : Walker.walk plan (Window.whole source) { Walker.new with single }
    (Lexing.of source).tokens with ⟨next, _ | error⟩
  · rw [walked] at read
    cases lexical : (Lexing.of source).error? with
    | none =>
        rw [lexical] at read
        simp only [Prod.mk.injEq, Option.map_eq_none_iff] at read
        obtain ⟨rfl, ended⟩ := read
        exact ⟨rfl, rfl, ended⟩
    | some error =>
        rw [lexical] at read
        cases read
  · rw [walked] at read
    cases read

theorem read_of_walk {single : Bool}
    (walked : Walker.walk plan (Window.whole source) { Walker.new with single }
      (Lexing.of source).tokens = (walker, none))
    (lexical : (Lexing.of source).error? = none)
    (ended : (walker.endOfInput source.length).2 = none) :
    plan.read single source = (walker, none) := by
  unfold Plan.read readOn
  rw [walked, lexical]
  simp only [ended, Option.map_none]

theorem read_cases (plan : Plan) (single : Bool) (source : Bytes) :
    (∃ before token after middle next error, (Lexing.of source).tokens = before ++ token :: after ∧
        Walker.walk plan (Window.whole source) { Walker.new with single } before =
          (middle, none) ∧
        middle.push plan (Window.whole source) token = (next, some error) ∧
        plan.read single source = (next, some (.structural error))) ∨
      ∃ last, Walker.walk plan (Window.whole source) { Walker.new with single }
          (Lexing.of source).tokens = (last, none) ∧
        plan.read single source = (last, match (Lexing.of source).error? with
          | some error => some (.lex error)
          | none => (last.endOfInput source.length).2.map .structural) := by
  unfold Plan.read Plan.readOn
  rcases walked : Walker.walk plan (Window.whole source) { Walker.new with single }
    (Lexing.of source).tokens with ⟨last, _ | error⟩
  · refine Or.inr ⟨last, rfl, ?_⟩
    cases (Lexing.of source).error? <;> rfl
  · obtain ⟨before, token, after, middle, split, through, pushed⟩ := Walker.walk_eq_some walked
    exact Or.inl ⟨before, token, after, middle, last, error, split, through, pushed, rfl⟩

theorem read_of_single (read : plan.read true source = (walker, none)) :
    plan.read false source = (walker.withSingle false, none) ∧ walker.roots = 1 := by
  obtain ⟨walked, lexical, ended⟩ := read_ok read
  have inner := Lexing.inner source
  have start := Walker.sound_new true
  have none : Walker.begun { Walker.new with single := true } ≤ 1 := Nat.zero_le 1
  have bound := Walker.walk_single_begun start rfl none inner walked
  have single := Walker.walk_single rfl inner walked
  have other := Walker.walk_of_single rfl inner walked
  obtain ⟨closed, some⟩ := Walker.endOfInput_none ended
  have counted : walker.begun = walker.roots := by
    unfold Walker.begun
    rw [closed, if_pos rfl, Nat.add_zero]
  have present := some single
  refine ⟨read_of_walk other lexical ?_, by omega⟩
  rw [Walker.endOfInput_withSingle present]
  exact ended

theorem read_to_single (read : plan.read false source = (walker, none))
    (one : walker.roots = 1) : plan.read true source = (walker.withSingle true, none) := by
  obtain ⟨walked, lexical, ended⟩ := read_ok read
  obtain ⟨closed, _⟩ := Walker.endOfInput_none ended
  have counted : walker.begun = 1 := by
    unfold Walker.begun
    rw [closed, if_pos rfl, one]
  refine read_of_walk
    (Walker.walk_to_single (Walker.sound_new false) (Nat.le_of_eq counted) (Lexing.inner source)
      walked) lexical ?_
  rw [Walker.endOfInput_withSingle (by rw [one]; exact Nat.one_ne_zero)]
  exact ended

end Plan

/-! ### Any chunks -/

/-- What streaming a source comes to: the matches, the first error, and what was counted. -/
structure Account where
  found : List Match
  error? : Option DocumentError
  matched : Nat
  skipped : Nat

namespace Engine

def account (engine : Engine) (chunks : List Bytes) : Account :=
  let (engine, error?) := engine.reset.stream chunks
  ⟨engine.take.1, error?, engine.counts.matched, engine.counts.skipped⟩

theorem Reached.account_read {engine : Engine} (reached : engine.Reached)
    (chunks : List Bytes) :
    engine.account chunks =
      ⟨(engine.plan.read false chunks.flatten).1.latest.reverse,
        (engine.plan.read false chunks.flatten).2,
        (engine.plan.read false chunks.flatten).1.matched,
        (engine.plan.read false chunks.flatten).1.skipped⟩ := by
  rw [← reached.stream_read chunks]
  rfl

/-- Engines with one plan give the same account of a source however it is cut. A run of the source
succeeds just where streaming it ends without an error behind one root value, and finds the same. -/
theorem account_of_flatten {engine other : Engine} (reached : engine.Reached)
    (otherReached : other.Reached) (plan : engine.plan = other.plan) {chunks pieces : List Bytes}
    (same : chunks.flatten = pieces.flatten) :
    engine.account chunks = other.account pieces ∧
      ((∃ document, (other.run pieces.flatten).2 = .ok document) ↔
        (engine.account chunks).error? = none ∧
          (engine.reset.stream chunks).1.walker.roots = 1) ∧
      ∀ document, (other.run pieces.flatten).2 = .ok document →
        document.found = (engine.account chunks).found ∧
          document.counts.matched = (engine.account chunks).matched ∧
          document.counts.skipped = (engine.account chunks).skipped := by
  have streamed := reached.stream_read chunks
  have run := otherReached.run_read pieces.flatten
  have account := reached.account_read chunks
  have otherAccount := otherReached.account_read pieces
  have roots : (engine.reset.stream chunks).1.walker.roots =
      (engine.plan.read false chunks.flatten).1.roots := by
    rw [← streamed]
    rfl
  rw [← plan, ← same] at run otherAccount
  refine ⟨account.trans otherAccount.symm, ?_, ?_⟩
  · rw [account, roots, ← same]
    constructor
    · rintro ⟨document, ok⟩
      rcases read : engine.plan.read true chunks.flatten with ⟨walker, _ | error⟩
      · obtain ⟨streamRead, one⟩ := Plan.read_of_single read
        rw [streamRead]
        exact ⟨rfl, one⟩
      · rw [run, read] at ok
        cases ok
    · rintro ⟨noError, one⟩
      rcases read : engine.plan.read false chunks.flatten with ⟨walker, _ | error⟩
      · rw [read] at one
        rw [Plan.read_to_single read one] at run
        exact ⟨_, run⟩
      · rw [read] at noError
        cases noError
  · intro document ok
    rw [← same] at ok
    rcases read : engine.plan.read true chunks.flatten with ⟨walker, _ | error⟩
    · obtain ⟨streamRead, _⟩ := Plan.read_of_single read
      rw [run, read] at ok
      cases ok
      rw [account, streamRead]
      exact ⟨rfl, rfl, rfl⟩
    · rw [run, read] at ok
      cases ok

/-- A cut inside the number of `{"a":[12]}` does not show. -/
theorem account_of_flatten_number :
    (new (Group.withField .empty "a" .leaf) (.ofMode .raw)).account
        [[0x7B, 0x22, 0x61, 0x22, 0x3A, 0x5B, 0x31], [], [0x32, 0x5D, 0x7D]] =
      (new (Group.withField .empty "a" .leaf) (.ofMode .raw)).account
        [[0x7B, 0x22, 0x61, 0x22, 0x3A, 0x5B, 0x31, 0x32, 0x5D, 0x7D]] := by
  have reached : (new (Group.withField .empty "a" .leaf) (.ofMode .raw)).Reached :=
    .new (.leaf .empty "a") _
  have same : List.flatten [[0x7B, 0x22, 0x61, 0x22, 0x3A, 0x5B, 0x31], [], [0x32, 0x5D, 0x7D]] =
      List.flatten [([0x7B, 0x22, 0x61, 0x22, 0x3A, 0x5B, 0x31, 0x32, 0x5D, 0x7D] : Bytes)] := rfl
  exact (account_of_flatten reached reached rfl same).1

end Engine
end JsonProjection
