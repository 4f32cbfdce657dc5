import JsonProjection.Pool.Request
import JsonProjection.Proofs.Engine.Operations

/-!
Answers do not tell what a worker did before.

The engine at a desk has been built for the query that it is kept under, and whatever documents went
through it, its runs come out as those of a new one. A desk that has failed to build an engine is
empty.
-/

namespace JsonProjection

/-- How a request is answered by an engine of its own, with the default settings: with the projected
root and the raw leaves of its line, or with the text of the error. -/
def WorkRequest.response (request : WorkRequest) : WorkResponse :=
  match compile request.query with
  | .error error => ⟨request.id, none, [], some (QueryError.query error).message⟩
  | .ok group =>
    match ((Engine.new group (EngineOptions.ofMode request.mode)).run request.line).2 with
    | .error error => ⟨request.id, none, [], some (QueryError.document error).message⟩
    | .ok document => ⟨request.id, document.value?, document.raws, none⟩

theorem WorkRequest.response_id (request : WorkRequest) : request.response.id = request.id := by
  unfold response
  split
  · rfl
  · split <;> rfl

structure Engine.Serves (engine : Engine) (query : String) : Prop where
  compiled : compile query = .ok engine.plan.group
  faithful : engine.lexer.cache.Faithful

namespace Desk

/-- What lies ready is an engine for the query it is kept under. -/
def Ready (desk : Desk) : Prop :=
  ∀ query engine, desk.prepared? = some (query, engine) → engine.Serves query

theorem empty_ready : empty.Ready := by
  intro query engine kept
  cases kept

variable {desk : Desk} {query : String}

theorem Ready.engineFor_error (ready : desk.Ready) (mode : EmitMode) {error : SyntaxError}
    (failed : compile query = .error error) : desk.engineFor query mode = .error error := by
  unfold engineFor
  rcases kept : desk.prepared? with _ | ⟨prepared, engine⟩
  · simp only [failed]
    rfl
  · by_cases fits : prepared = query ∧ engine.plan.mode = mode
    · have compiled := (ready prepared engine kept).compiled
      rw [fits.1, failed] at compiled
      cases compiled
    · simp only [failed, Bool.and_eq_true, decide_eq_true_eq, if_neg fits]
      rfl

theorem Ready.engineFor_ok (ready : desk.Ready) (mode : EmitMode) {group : Group}
    (compiled : compile query = .ok group) :
    ∃ engine, desk.engineFor query mode = .ok engine ∧ engine.Serves query ∧
      engine.plan = ⟨group, mode⟩ := by
  have fresh : (Engine.new group (EngineOptions.ofMode mode)).Serves query :=
    ⟨compiled, StringCache.faithful_new _ _⟩
  unfold engineFor
  rcases kept : desk.prepared? with _ | ⟨prepared, engine⟩
  · simp only [compiled]
    exact ⟨_, rfl, fresh, rfl⟩
  · by_cases fits : prepared = query ∧ engine.plan.mode = mode
    · have serves := ready prepared engine kept
      rw [fits.1] at serves
      have same := serves.compiled.symm.trans compiled
      simp only [Bool.and_eq_true, decide_eq_true_eq, if_pos fits]
      refine ⟨engine, rfl, serves, ?_⟩
      rw [← Except.ok.inj same, ← fits.2]
    · simp only [compiled, Bool.and_eq_true, decide_eq_true_eq, if_neg fits]
      exact ⟨_, rfl, fresh, rfl⟩

theorem Ready.answer (ready : desk.Ready) (request : WorkRequest) :
    (desk.answer request).1.Ready ∧ (desk.answer request).2 = request.response := by
  unfold Desk.answer WorkRequest.response
  rcases compiled : compile request.query with error | group
  · rw [ready.engineFor_error request.mode compiled]
    exact ⟨empty_ready, rfl⟩
  · obtain ⟨engine, built, serves, plan⟩ := ready.engineFor_ok request.mode compiled
    have kept := engine.run_keeps request.line
    have same := engine.run_eq_new serves.faithful
      (show (EngineOptions.ofMode request.mode).mode = engine.plan.mode by rw [plan]; rfl)
      request.line
    have after : Ready ⟨some (request.query, (engine.run request.line).1)⟩ := by
      intro query own there
      cases there
      exact ⟨kept.plan ▸ serves.compiled, kept.faithful serves.faithful⟩
    rw [plan] at same
    rw [built]
    simp only [← same]
    rcases ran : engine.run request.line with ⟨next, error | document⟩ <;> rw [ran] at after
    · exact ⟨after, rfl⟩
    · exact ⟨after, rfl⟩

end Desk
end JsonProjection
