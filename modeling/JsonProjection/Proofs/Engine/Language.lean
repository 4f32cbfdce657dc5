import JsonProjection.Proofs.Engine.Project
import JsonProjection.Proofs.Walk.Refusal

/-!
Which documents a run accepts, and where it finds the others wrong.

The documents are those whose tokens spell a tree that fits the plan. A source that is none is
refused at the first token behind which none can follow; if there is no such token, for its
lexical error or, without one, at its end.
-/

namespace JsonProjection

open Walk

def Lexing.kinds (lexing : Lexing) : List Token.Kind :=
  lexing.tokens.map (·.kind)

/-- What becomes of a source, said by the documents that a plan accepts. -/
structure Plan.Decides (plan : Plan) (source : Bytes) (outcome : Except DocumentError Document) :
    Prop where
  /-- A document is what lexes without an error and is accepted. -/
  accepted : (∃ document, outcome = .ok document) ↔
    (Lexing.of source).error? = none ∧ plan.Accepts (Lexing.of source).kinds
  /-- A lexical error counts if the tokens in front of it can be completed. -/
  lexical : ∀ error, outcome = .error (.lex error) ↔
    (Lexing.of source).error? = some error ∧ plan.Viable (Lexing.of source).kinds
  /-- A token is refused if it is the first behind which nothing can be completed. -/
  refused : ∀ offset,
    (∃ error, outcome = .error (.structural error) ∧ error.refusedAt? = some offset) ↔
      ∃ before token after, (Lexing.of source).tokens = before ++ token :: after ∧
        plan.Viable (before.map (·.kind)) ∧ ¬plan.Viable ((before ++ [token]).map (·.kind)) ∧
        token.span.start = offset
  /-- A source ends too early if it lexes without an error and something is missing behind it. -/
  ended : (∃ error, outcome = .error (.structural error) ∧ error.refusedAt? = none) ↔
    (Lexing.of source).error? = none ∧
      ∃ rest, rest ≠ [] ∧ plan.Accepts ((Lexing.of source).kinds ++ rest)
  /-- It is empty if it has no token, and else it is truncated at its end. -/
  empty : outcome = .error (.structural .empty) ↔
    (Lexing.of source).error? = none ∧ (Lexing.of source).tokens = []
  truncated : ∀ depth offset, outcome = .error (.structural (.truncated depth offset)) →
    offset = source.length

namespace Plan

variable {plan : Plan} {source : Bytes}

theorem first_refused_unique {before before' after after' : List Token} {token token' : Token}
    (split : before ++ token :: after = before' ++ token' :: after')
    (viable : plan.Viable (before.map (·.kind)))
    (stuck : ¬plan.Viable ((before ++ [token]).map (·.kind)))
    (viable' : plan.Viable (before'.map (·.kind)))
    (stuck' : ¬plan.Viable ((before' ++ [token']).map (·.kind))) : token = token' := by
  -- A longer run of tokens that can be completed would hold the refused one.
  have apart : ∀ {front back : List Token} {own : Token} {more rest : List Token} {other : Token},
      front ++ own :: more = back ++ other :: rest → plan.Viable (back.map (·.kind)) →
      ¬plan.Viable ((front ++ [own]).map (·.kind)) → back.length ≤ front.length := by
    intro front back own more rest other split viable stuck
    rcases List.append_eq_append_iff.mp split with ⟨middle, rfl, parts⟩ | ⟨middle, rfl, parts⟩
    · cases middle with
      | nil =>
          exact Nat.le_of_eq (by rw [List.append_nil])
      | cons first others =>
          cases parts
          rw [← List.singleton_append, ← List.append_assoc, List.map_append] at viable
          exact absurd viable.front stuck
    · rw [List.length_append]
      exact Nat.le_add_right _ _
  have length : before.length = before'.length :=
    Nat.le_antisymm (apart split.symm viable stuck') (apart split viable' stuck)
  exact (List.cons.inj (List.append_inj split length).2).1

end Plan

/-! ### What a run comes to -/

theorem Plan.Decides.of_refused {plan : Plan} {source : Bytes} {before after : List Token}
    {token : Token} (split : (Lexing.of source).tokens = before ++ token :: after)
    (viable : plan.Viable (before.map (·.kind)))
    (stuck : ¬plan.Viable ((before ++ [token]).map (·.kind))) {error : StructuralError}
    (points : error.refusedAt? = some token.span.start) :
    plan.Decides source (.error (.structural error)) := by
  have noEnd : ∀ rest, ¬plan.Viable ((Lexing.of source).kinds ++ rest) := by
    intro rest all
    unfold Lexing.kinds at all
    rw [split, ← List.singleton_append, ← List.append_assoc, List.map_append,
      List.append_assoc] at all
    exact stuck all.front
  have noDocument : ∀ rest, ¬plan.Accepts ((Lexing.of source).kinds ++ rest) :=
    fun rest accepts => noEnd rest ⟨[], by rw [List.append_nil]; exact accepts⟩
  have noOwn := noDocument []
  have noViable := noEnd []
  rw [List.append_nil] at noOwn noViable
  constructor
  case accepted =>
    constructor
    · rintro ⟨document, other⟩
      cases other
    · rintro ⟨_, accepts⟩
      exact absurd accepts noOwn
  case lexical =>
    intro found
    constructor
    · intro other
      cases other
    · rintro ⟨_, all⟩
      exact absurd all noViable
  case refused =>
    intro offset
    constructor
    · rintro ⟨found, same, place⟩
      cases same
      rw [points] at place
      exact ⟨before, token, after, split, viable, stuck, Option.some.inj place⟩
    · rintro ⟨before', token', after', split', viable', stuck', rfl⟩
      rw [split] at split'
      rw [first_refused_unique split' viable stuck viable' stuck'] at points
      exact ⟨error, rfl, points⟩
  case ended =>
    constructor
    · rintro ⟨found, same, place⟩
      cases same
      rw [points] at place
      cases place
    · rintro ⟨_, rest, _, accepts⟩
      exact absurd accepts (noDocument rest)
  case empty =>
    constructor
    · intro same
      cases same
      cases points
    · rintro ⟨_, noTokens⟩
      rw [noTokens] at split
      exact absurd split.symm (List.append_ne_nil_of_right_ne_nil before (List.cons_ne_nil _ _))
  case truncated =>
    intro depth offset same
    cases same
    cases points

theorem Plan.Viable.not_refused {plan : Plan} {source : Bytes}
    (viable : plan.Viable (Lexing.of source).kinds) {before after : List Token} {token : Token}
    (split : (Lexing.of source).tokens = before ++ token :: after) :
    plan.Viable ((before ++ [token]).map (·.kind)) := by
  unfold Lexing.kinds at viable
  rw [split, ← List.singleton_append, ← List.append_assoc, List.map_append] at viable
  exact viable.front

theorem Walker.begun_of_tokens {plan : Plan} {window : Window} {tokens : List Token}
    {last : Walker} (inner : ∀ token ∈ tokens, token.kind ≠ .endOfInput)
    (walked : Walker.walk plan window { Walker.new with single := true } tokens = (last, none))
    (some : tokens ≠ []) : 0 < last.begun := by
  cases tokens with
  | nil => exact absurd rfl some
  | cons token rest =>
      obtain ⟨middle, pushed, behind⟩ := Walker.walk_cons_eq_none walked
      have own := inner token List.mem_cons_self
      have start := Walker.sound_new true
      have begun : 0 < middle.begun := by
        rw [Walker.push_begun start own pushed, if_pos]
        · exact Nat.succ_pos _
        · rfl
      have further := Walker.walk_begun_le (Walker.push_sound start own pushed)
        (fun other member => inner other (List.mem_cons_of_mem token member)) behind
      omega

theorem Walker.tokens_eq_nil {plan : Plan} {window : Window} {tokens : List Token} {last : Walker}
    (inner : ∀ token ∈ tokens, token.kind ≠ .endOfInput)
    (walked : Walker.walk plan window { Walker.new with single := true } tokens = (last, none))
    (closed : last.openBrackets = 0) (roots : last.roots = 0) : tokens = [] := by
  have stack : last.stack = [] := by
    unfold Walker.openBrackets at closed
    exact List.eq_nil_of_length_eq_zero (by omega)
  by_cases noTokens : tokens = []
  · exact noTokens
  · have begun := Walker.begun_of_tokens inner walked noTokens
    unfold Walker.begun at begun
    rw [roots, if_pos stack] at begun
    cases begun

theorem Plan.Decides.of_end {plan : Plan} (distinct : plan.group.Distinct) {source : Bytes}
    (lexical : (Lexing.of source).error? = none) {last : Walker}
    (walked : Walker.walk plan (Window.whole source) { Walker.new with single := true }
      (Lexing.of source).tokens = (last, none))
    {error : StructuralError} (ended : (last.endOfInput source.length).2 = some error) :
    plan.Decides source (.error (.structural error)) := by
  have inner := Lexing.inner source
  have viable := Walker.walk_viable inner walked
  have which := Walker.endOfInput_offset ended
  have noToken : error.refusedAt? = none := by
    rcases which with ⟨rfl, _⟩ | ⟨rfl, _⟩ <;> rfl
  have noDocument : ¬plan.Accepts (Lexing.of source).kinds := by
    intro accepts
    obtain ⟨other, through, _, _, well⟩ := Walker.walk_accepted source distinct accepts
    rw [walked] at through
    cases through
    rw [well source.length] at ended
    cases ended
  constructor
  case accepted =>
    constructor
    · rintro ⟨document, other⟩
      cases other
    · rintro ⟨_, accepts⟩
      exact absurd accepts noDocument
  case lexical =>
    intro found
    constructor
    · intro other
      cases other
    · rintro ⟨wrong, _⟩
      rw [lexical] at wrong
      cases wrong
  case refused =>
    intro offset
    constructor
    · rintro ⟨found, same, points⟩
      cases same
      rw [noToken] at points
      cases points
    · rintro ⟨before, token, after, split, _, stuck, _⟩
      exact absurd (viable.not_refused split) stuck
  case ended =>
    constructor
    · intro _
      obtain ⟨rest, accepts⟩ := viable
      refine ⟨lexical, rest, ?_, accepts⟩
      intro noRest
      rw [noRest, List.append_nil] at accepts
      exact noDocument accepts
    · intro _
      exact ⟨error, rfl, noToken⟩
  case empty =>
    constructor
    · intro same
      cases same
      refine ⟨lexical, ?_⟩
      rcases which with ⟨other, _⟩ | ⟨_, closed, roots⟩
      · cases other
      · exact Walker.tokens_eq_nil inner walked closed roots
    · rintro ⟨_, noTokens⟩
      rw [noTokens] at walked
      cases walked
      cases ended
      rfl
  case truncated =>
    intro depth offset same
    cases same
    rcases which with ⟨place, _⟩ | ⟨other, _⟩
    · cases place
      rfl
    · cases other

theorem Plan.Decides.of_lexical {plan : Plan} {source : Bytes} {error : LexError}
    (lexical : (Lexing.of source).error? = some error)
    (viable : plan.Viable (Lexing.of source).kinds) :
    plan.Decides source (.error (.lex error)) := by
  have noEnd : (Lexing.of source).error? ≠ none := by
    rw [lexical]
    exact Option.some_ne_none error
  constructor
  case accepted =>
    constructor
    · rintro ⟨document, other⟩
      cases other
    · rintro ⟨wrong, _⟩
      exact absurd wrong noEnd
  case lexical =>
    intro found
    constructor
    · intro same
      cases same
      exact ⟨lexical, viable⟩
    · rintro ⟨same, _⟩
      rw [lexical] at same
      cases same
      rfl
  case refused =>
    intro offset
    constructor
    · rintro ⟨found, other, _⟩
      cases other
    · rintro ⟨before, token, after, split, _, stuck, _⟩
      exact absurd (viable.not_refused split) stuck
  case ended =>
    constructor
    · rintro ⟨found, other, _⟩
      cases other
    · rintro ⟨wrong, _⟩
      exact absurd wrong noEnd
  case empty =>
    constructor
    · intro other
      cases other
    · rintro ⟨wrong, _⟩
      exact absurd wrong noEnd
  case truncated =>
    intro depth offset other
    cases other

theorem Plan.Decides.of_document {plan : Plan} (distinct : plan.group.Distinct) {source : Bytes}
    (lexical : (Lexing.of source).error? = none)
    (accepts : plan.Accepts (Lexing.of source).kinds) (document : Document) :
    plan.Decides source (.ok document) := by
  have viable : plan.Viable (Lexing.of source).kinds :=
    ⟨[], by rw [List.append_nil]; exact accepts⟩
  constructor
  case accepted =>
    constructor
    · intro _
      exact ⟨lexical, accepts⟩
    · intro _
      exact ⟨document, rfl⟩
  case lexical =>
    intro found
    constructor
    · intro other
      cases other
    · rintro ⟨wrong, _⟩
      rw [lexical] at wrong
      cases wrong
  case refused =>
    intro offset
    constructor
    · rintro ⟨found, other, _⟩
      cases other
    · rintro ⟨before, token, after, split, _, stuck, _⟩
      exact absurd (viable.not_refused split) stuck
  case ended =>
    constructor
    · rintro ⟨found, other, _⟩
      cases other
    · rintro ⟨_, rest, longer, accepted⟩
      exact absurd (Walker.eq_nil_of_accepts distinct accepts accepted) longer
  case empty =>
    constructor
    · intro other
      cases other
    · rintro ⟨_, noTokens⟩
      unfold Lexing.kinds at accepts
      rw [noTokens] at accepts
      have noKinds : plan.Accepts (([] : List Token).map (·.kind)) := accepts
      obtain ⟨last, walked, full, _⟩ := Walker.walk_accepted [] distinct noKinds
      cases walked
      exact absurd (fun _ _ => rfl) full
  case truncated =>
    intro depth offset other
    cases other

namespace Engine

/-- Which sources a run accepts, and how it refuses the others. -/
theorem run_decides {engine : Engine} (reached : engine.Reached) (source : Bytes) :
    engine.plan.Decides source (engine.run source).2 := by
  have distinct := reached.distinct
  have inner := Lexing.inner source
  have run := reached.run_read source
  rcases engine.plan.read_cases true source with
    ⟨before, token, after, middle, next, error, split, walked, pushed, read⟩ | ⟨last, walked, read⟩
  · rw [read] at run
    rw [run]
    have front : ∀ other ∈ before, other.kind ≠ .endOfInput := fun other member =>
      inner other (by rw [split]; exact List.mem_append_left _ member)
    have own : token.kind ≠ .endOfInput :=
      inner token (by rw [split]; exact List.mem_append_right _ List.mem_cons_self)
    exact .of_refused split (Walker.walk_viable front walked)
      (Walker.not_viable_of_refused distinct walked pushed) (Walker.push_offset own pushed)
  · cases lexical : (Lexing.of source).error? with
    | some error =>
        rw [read, lexical] at run
        rw [run]
        exact .of_lexical lexical (Walker.walk_viable inner walked)
    | none =>
        rw [read, lexical] at run
        cases ended : (last.endOfInput source.length).2 with
        | some error =>
            simp only [ended, Option.map_some] at run
            rw [run]
            exact .of_end distinct lexical walked ended
        | none =>
            simp only [ended, Option.map_none] at run
            rw [run]
            exact .of_document distinct lexical (Walker.walk_accepts inner walked ended) _

/-- What becomes of `{"a" 1}`, where the colon is missing. -/
theorem run_decides_colon :
    (new (Group.withField .empty "a" .leaf) (.ofMode .raw)).plan.Decides
      [0x7B, 0x22, 0x61, 0x22, 0x20, 0x31, 0x7D]
      ((new (Group.withField .empty "a" .leaf) (.ofMode .raw)).run
        [0x7B, 0x22, 0x61, 0x22, 0x20, 0x31, 0x7D]).2 :=
  run_decides (.new (.leaf .empty "a") (.ofMode .raw)) _

end Engine
end JsonProjection
