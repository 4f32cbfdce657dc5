import JsonProjection.Proofs.Walk.Completion
import JsonProjection.Proofs.Walk.Document

/-!
Where a walk is refused.

A walk is refused at the first token behind which no document can follow, and the error points at
the start of that token.
-/

namespace JsonProjection

open Walk

/-- The offset of the token that an error refuses. Errors at the end of the input refuse none. -/
def StructuralError.refusedAt? : StructuralError → Option Nat
  | .unexpected _ _ offset => some offset
  | .mismatchedClose offset => some offset
  | .trailingData offset => some offset
  | .truncated _ _ => none
  | .empty => none

namespace Walker

variable {plan : Plan} {window : Window} {walker next : Walker} {token : Token}
  {error : StructuralError}

/-! ### Errors of one step -/

theorem refuse_offset {expected : ExpectedToken}
    (refused : walker.refuse token expected = (next, some error)) :
    error.refusedAt? = some token.span.start := by
  cases refused
  rfl

theorem close_offset (closed : walker.close token = (next, some error)) :
    error.refusedAt? = some token.span.start := by
  unfold close at closed
  split at closed
  · exact refuse_offset closed
  · simp only at closed
    split at closed
    · cases closed
    · cases closed
      rfl

theorem begin_offset {mode : EmitMode} {treatment : Treatment}
    (begun : walker.begin mode window treatment token = (next, some error)) :
    error.refusedAt? = some token.span.start := by
  unfold begin at begun
  split at begun
  · cases treatment <;> cases begun
  · exact refuse_offset begun
  · cases treatment with
    | project group => cases mode <;> cases begun
    | _ => cases begun

theorem pushFrame_offset {mode : EmitMode} {frame : Frame} {rest : List Frame}
    (pushed : walker.pushFrame mode window frame rest token = (next, some error)) :
    error.refusedAt? = some token.span.start := by
  unfold pushFrame at pushed
  cases expect : frame.expect with
  | value key =>
      rw [expect] at pushed
      exact begin_offset pushed
  | item orClose =>
      rw [expect] at pushed
      simp only at pushed
      split at pushed
      · exact close_offset pushed
      · exact begin_offset pushed
  | colon key =>
      rw [expect] at pushed
      simp only at pushed
      split at pushed
      · cases pushed
      · exact refuse_offset pushed
  | key orClose =>
      rw [expect] at pushed
      simp only at pushed
      split at pushed
      · cases pushed
      · cases pushed
        rfl
      · split at pushed
        · exact close_offset pushed
        · exact refuse_offset pushed
      · exact refuse_offset pushed
  | separator =>
      rw [expect] at pushed
      simp only at pushed
      split at pushed
      · split at pushed <;> cases pushed
      · exact close_offset pushed
      · exact close_offset pushed
      · exact refuse_offset pushed

theorem push_offset (inner : token.kind ≠ .endOfInput)
    (pushed : walker.push plan window token = (next, some error)) :
    error.refusedAt? = some token.span.start := by
  unfold push at pushed
  rw [if_neg inner] at pushed
  split at pushed
  · simp only at pushed
    split at pushed <;> cases pushed
  · split at pushed
    · simp only at pushed
      split at pushed <;> cases pushed
    · split at pushed
      · unfold beginRoot at pushed
        split at pushed
        · cases pushed
          rfl
        · exact begin_offset pushed
      · exact pushFrame_offset pushed

theorem endOfInput_offset {offset : Nat}
    (ended : (walker.endOfInput offset).2 = some error) :
    error = .truncated walker.openBrackets offset ∧ 0 < walker.openBrackets ∨
      error = .empty ∧ walker.openBrackets = 0 ∧ walker.roots = 0 := by
  unfold endOfInput at ended
  split at ended
  · rename_i opened
    cases ended
    exact Or.inl ⟨rfl, opened⟩
  · rename_i closed
    split at ended
    · rename_i missing
      cases ended
      have roots := (Bool.and_eq_true_iff.mp missing).2
      exact Or.inr ⟨rfl, Nat.eq_zero_of_not_pos closed, beq_iff_eq.mp roots⟩
    · cases ended

end Walker

/-! ### Where documents end -/

variable {plan : Plan}

theorem Plan.Viable.front {first second : List Token.Kind}
    (viable : plan.Viable (first ++ second)) : plan.Viable first := by
  obtain ⟨rest, accepts⟩ := viable
  exact ⟨second ++ rest, by rw [← List.append_assoc]; exact accepts⟩

namespace Walker

variable {source : Bytes} {tokens : List Token} {next : Walker}

def spellAll (kinds : List Token.Kind) : List Token :=
  kinds.map fun kind => ⟨kind, ⟨0, 0⟩⟩

theorem spellAll_kinds (kinds : List Token.Kind) :
    (spellAll kinds).map (·.kind) = kinds := by
  rw [spellAll, List.map_map]
  exact List.map_id kinds

theorem walk_accepted (source : Bytes) (distinct : plan.group.Distinct)
    (accepts : plan.Accepts (tokens.map (·.kind))) :
    ∃ last, walk plan (Window.whole source) { new with single := true } tokens = (last, none) ∧
      ¬last.Room ∧ last.single = true ∧ ∀ offset, (last.endOfInput offset).2 = none := by
  obtain ⟨tree, fits, spelled⟩ := accepts
  have awaits := awaitsRoot_new true
  exact ⟨_, walk_root fits distinct awaits spelled,
    fun room => Nat.succ_ne_zero 0 (room ⟨rfl, rfl⟩ rfl),
    rfl, fun offset => endOfInput_root awaits plan source tree tokens offset⟩

/-- Behind a token that is refused no document can follow. -/
theorem not_viable_of_refused (distinct : plan.group.Distinct) {before : List Token}
    {middle : Walker} {token : Token} {error : StructuralError}
    (walked : walk plan (Window.whole source) { new with single := true } before = (middle, none))
    (pushed : middle.push plan (Window.whole source) token = (next, some error)) :
    ¬plan.Viable ((before ++ [token]).map (·.kind)) := by
  rintro ⟨rest, accepts⟩
  rw [← spellAll_kinds rest, ← List.map_append] at accepts
  obtain ⟨last, through, _⟩ := walk_accepted source distinct accepts
  rw [List.append_assoc, walk_append_ok walked, List.singleton_append,
    walk_cons_error pushed] at through
  cases through

theorem eq_nil_of_accepts (distinct : plan.group.Distinct) {first rest : List Token.Kind}
    (accepts : plan.Accepts first) (longer : plan.Accepts (first ++ rest)) : rest = [] := by
  cases rest with
  | nil => rfl
  | cons kind others =>
      have inner : (⟨kind, ⟨0, 0⟩⟩ : Token).kind ≠ .endOfInput := by
        obtain ⟨tree, fits, spelled⟩ := longer
        refine fits.inner kind ?_
        rw [← spelled]
        exact List.mem_append_right first List.mem_cons_self
      rw [← spellAll_kinds first] at accepts longer
      rw [← spellAll_kinds (kind :: others), ← List.map_append] at longer
      obtain ⟨last, walked, full, single, _⟩ := walk_accepted [] distinct accepts
      obtain ⟨_, through, _⟩ := walk_accepted [] distinct longer
      have pushed := push_trailing plan (Window.whole []) full single inner
      rw [walk_append_ok walked, spellAll, List.map_cons, walk_cons_error pushed] at through
      cases through

end Walker
end JsonProjection
