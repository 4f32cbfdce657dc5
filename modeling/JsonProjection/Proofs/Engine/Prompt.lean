import JsonProjection.Proofs.Engine.Chunks
import JsonProjection.Proofs.Walk.Prompt

/-!
Matches are delivered without delay.

At every point of a source an engine has delivered the matches whose values end in front of it, and
no others. Only a number that ends right there is held back: the next byte may be a part of it.
-/

namespace JsonProjection

open Walk

theorem Plan.roots_of_read {plan : Plan} {source : Bytes} {walker : Walker}
    (read : plan.read false source = (walker, none)) :
    ∃ roots : List plan.Root, Lexing.of source = ⟨roots.flatMap (·.tokens), none⟩ := by
  obtain ⟨walked, lexical, ended⟩ := read_ok read
  obtain ⟨roots, spelled⟩ := Walker.walk_eq_roots (Lexing.inner source) walked ended
  exact ⟨roots, by rw [← spelled, ← lexical]⟩

namespace Engine

theorem Reached.feedAll_latest {engine : Engine} (reached : engine.Reached) {source rest : Bytes}
    {chunks : List Bytes} (split : source = chunks.flatten ++ rest) {tokens : List Token}
    {lexer : Lexer} {walker : Walker}
    (scanned : (Lexer.new (StringCache.new 0 0)).scan chunks.flatten = (tokens, .ok lexer))
    (walked : Walker.walk engine.plan (Window.whole source) Walker.new tokens = (walker, none)) :
    (engine.reset.feedAll chunks).2 = none ∧
      (engine.reset.feedAll chunks).1.walker.latest = walker.latest := by
  have within : engine.reset.Within source (chunks.flatten ++ rest) := by
    rw [← split]
    exact reached.reset_within source
  have same := (Lexer.Same.reset reached.healthy.2 0 0).scan chunks.flatten
  have fed : (_, (engine.reset.feedAll chunks).2) = engine.plan.walkOn source Walker.new
      ((Lexer.new (StringCache.new 0 0)).scan chunks.flatten) :=
    within.feedAll.1.trans (Plan.walkOn_congr same)
  have stopped : engine.plan.walkOn source Walker.new (tokens, .ok lexer) = (walker, none) := by
    simp only [Plan.walkOn, walked]
  rw [scanned, stopped] at fed
  obtain ⟨rfl, ok⟩ := Prod.mk.inj fed
  exact ⟨ok, rfl⟩

/-- Of a source that is read to its end the front, fed in any chunks, delivers just the matches
whose values end within it, as they are found in the whole source. -/
theorem feedAll_prompt {engine : Engine} (reached : engine.Reached) {whole : List Bytes}
    (ends : (engine.account whole).error? = none) :
    ∃ roots : List engine.plan.Root,
      Lexing.of whole.flatten = ⟨roots.flatMap (·.tokens), none⟩ ∧
      (engine.account whole).found =
        (roots.flatMap (·.emissions whole.flatten)).map (·.found) ∧
      ∀ (chunks : List Bytes) (rest : Bytes), whole.flatten = chunks.flatten ++ rest →
        (engine.reset.feedAll chunks).2 = none ∧
        (engine.reset.feedAll chunks).1.take.1 =
          ((roots.flatMap (·.emissions whole.flatten)).filter
            (·.within chunks.flatten.length)).map (·.found) := by
  have account := reached.account_read whole
  generalize sourceEq : whole.flatten = source at account ⊢
  rcases read : engine.plan.read false source with ⟨walker, error?⟩
  rw [read] at account
  obtain rfl : error? = none := by
    rw [account] at ends
    exact ends
  obtain ⟨roots, lexed⟩ := Plan.roots_of_read read
  obtain ⟨walked, -⟩ := Plan.read_ok read
  have chain := Lexing.chain source
  rw [lexed] at chain
  have emits : Walker.Emits engine.plan (Window.whole source) Walker.new _ _ :=
    Walker.roots_emit reached.distinct (Walker.awaitsRoot_new false) rfl roots chain
  refine ⟨roots, lexed, ?_, fun chunks rest split => ?_⟩
  · rw [lexed] at walked
    have through : Walker.walk engine.plan (Window.whole source) Walker.new _ = (walker, none) :=
      walked
    rw [account, emits.latest through]
    simp only [Walker.new, List.append_nil, List.reverse_reverse]
  · rw [split] at lexed
    obtain ⟨first, second, next, parts, scanned, early, late⟩ := Lexing.of_append lexed
    obtain ⟨middle, own, others, cut⟩ := emits first second parts
    obtain ⟨ok, latest⟩ := reached.feedAll_latest split scanned cut.walked
    have passable : ∀ emission ∈ roots.flatMap (·.emissions source),
        Passable (emission.tokens.map (·.kind)) := by
      intro emission member
      obtain ⟨root, _, inside⟩ := List.mem_flatMap.mp member
      exact root.emissions_passable emission inside
    refine ⟨ok, ?_⟩
    rw [cut.filter_within passable early late, take, latest, cut.latest]
    simp only [Walker.new, List.append_nil, List.reverse_reverse]

/-- With the bytes `[1,23` the array `[1,23]` has delivered its first number and not its second. -/
theorem feedAll_prompt_number :
    ∃ roots : List (Plan.Root ⟨.empty, .materialize⟩),
      ((roots.flatMap (·.emissions [0x5B, 0x31, 0x2C, 0x32, 0x33, 0x5D])).map (·.found) =
        [.value (.integer 1), .value (.integer 23)]) ∧
      ((roots.flatMap (·.emissions [0x5B, 0x31, 0x2C, 0x32, 0x33, 0x5D])).filter
        (·.within 5)).map (·.found) = [.value (.integer 1)] := by
  have reached : (new .empty (.ofMode .materialize)).Reached := .new .empty (.ofMode .materialize)
  have ends : ((new .empty (.ofMode .materialize)).account
      [[0x5B, 0x31, 0x2C, 0x32, 0x33, 0x5D]]).error? = none := rfl
  obtain ⟨roots, -, found, front⟩ := feedAll_prompt reached ends
  have delivered := (front [[0x5B], [0x31, 0x2C, 0x32, 0x33]] [0x5D] rfl).2
  exact ⟨roots, found.symm, delivered.symm⟩

end Engine
end JsonProjection
