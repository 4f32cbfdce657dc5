import JsonProjection.Proofs.Walk.Run

/-!
What a walk has skipped.

The skipped values stand one behind the other in front of what is read next, so that their lengths
add up to no more than an offset. A value that is being skipped counts when it ends, for all that is
inside it. This holds behind refused tokens too.
-/

namespace JsonProjection

open Walk

namespace Walker

variable {plan : Plan} {window : Window} {walker next : Walker} {token : Token} {limit : Nat}

/-- What was skipped fits in front of an offset, and in front of the value that is being skipped. -/
structure SkipsWithin (walker : Walker) (limit : Nat) : Prop where
  le : walker.skipped ≤ limit
  stretch : ∀ stretch, walker.skip = some stretch →
    walker.skipped ≤ stretch.start ∧ stretch.start ≤ limit

theorem SkipsWithin.later (skips : walker.SkipsWithin limit) {later : Nat} (le : limit ≤ later) :
    walker.SkipsWithin later :=
  ⟨Nat.le_trans skips.le le, fun stretch own =>
    ⟨(skips.stretch stretch own).1, Nat.le_trans (skips.stretch stretch own).2 le⟩⟩

theorem SkipsWithin.of_passing (passes : walker.skip = none)
    (le : walker.skipped ≤ limit) : walker.SkipsWithin limit := by
  refine ⟨le, fun stretch skips => ?_⟩
  rw [passes] at skips
  cases skips

structure Passive (walker next : Walker) : Prop where
  skipped : next.skipped = walker.skipped
  passes : next.skip = none

theorem Passive.within (passive : Passive walker next) (le : walker.skipped ≤ limit) :
    next.SkipsWithin limit :=
  .of_passing passive.passes (by rw [passive.skipped]; exact le)

/-! ### The parts of a step -/

@[simp]
theorem complete_skipped (walker : Walker) (value? : Option Json.Value) :
    (walker.complete value?).skipped = walker.skipped := by
  cases stack : walker.stack with
  | nil =>
      rw [complete_of_nil stack]
      cases value? <;> rfl
  | cons frame rest =>
      rw [complete_of_cons stack]
      split <;> rfl

theorem deliverRaw_skipped (walker : Walker) (window : Window) (key : String) (span : Span) :
    (walker.deliverRaw window key span).skipped = walker.skipped := by
  unfold deliverRaw
  split <;> rfl

theorem complete_passive (passes : walker.skip = none) (value? : Option Json.Value) :
    Passive walker (walker.complete value?) :=
  ⟨complete_skipped walker value?, (complete_skip walker value?).trans passes⟩

section Passing

variable (passes : walker.skip = none)

include passes

theorem close_passive (token : Token) : Passive walker (walker.close token).1 := by
  unfold close
  split
  · exact ⟨rfl, passes⟩
  · simp only
    split
    · exact ⟨complete_skipped _ _, (complete_skip _ _).trans passes⟩
    · exact ⟨rfl, passes⟩

theorem begin_skips (mode : EmitMode) (window : Window) (treatment : Treatment)
    (before : walker.skipped ≤ token.span.start) (ordered : token.span.start ≤ token.span.stop) :
    (walker.begin mode window treatment token).1.SkipsWithin token.span.stop := by
  have le : walker.skipped ≤ token.span.stop := Nat.le_trans before ordered
  have completes (value? : Option Json.Value) :
      (walker.complete value?).SkipsWithin token.span.stop :=
    (complete_passive passes value?).within le
  unfold begin
  split
  · cases treatment with
    | skip =>
        refine ⟨le, fun stretch skips => ?_⟩
        cases skips
        exact ⟨before, ordered⟩
    | capture key => exact .of_passing passes le
    | keep => exact .of_passing passes le
    | project group => exact .of_passing passes le
  · exact .of_passing passes le
  · cases treatment with
    | skip =>
        refine .of_passing ((complete_skip _ none).trans passes) ?_
        simp only [complete_skipped, Span.length]
        omega
    | capture key =>
        have delivered := deliverRaw_delivers walker window key token.span
        refine .of_passing ((complete_skip _ none).trans (delivered.skip.trans passes)) ?_
        simp only [complete_skipped, deliverRaw_skipped]
        exact le
    | keep =>
        simp only
        exact completes _
    | project group =>
        simp only
        split
        · exact completes (some _)
        · exact completes none

theorem beginRoot_skips (plan : Plan) (window : Window) (before : walker.skipped ≤ token.span.start)
    (ordered : token.span.start ≤ token.span.stop) :
    (walker.beginRoot plan window token).1.SkipsWithin token.span.stop := by
  unfold beginRoot
  split
  · exact .of_passing passes (Nat.le_trans before ordered)
  · apply begin_skips
    · exact passes
    · exact before
    · exact ordered

theorem pushFrame_skips (mode : EmitMode) (window : Window) (frame : Frame) (rest : List Frame)
    (before : walker.skipped ≤ token.span.start) (ordered : token.span.start ≤ token.span.stop) :
    (walker.pushFrame mode window frame rest token).1.SkipsWithin token.span.stop := by
  have le : walker.skipped ≤ token.span.stop := Nat.le_trans before ordered
  have same : walker.SkipsWithin token.span.stop := .of_passing passes le
  have closes := (close_passive passes token).within le
  have begins := begin_skips passes mode window (frame.treatment mode) before ordered
  have moves (expect : Expect) :
      (walker.expecting frame rest expect).1.SkipsWithin token.span.stop :=
    .of_passing passes le
  unfold pushFrame
  cases frame.expect with
  | value key => exact begins
  | colon key =>
      simp only
      split
      · exact moves _
      · exact same
  | key orClose =>
      simp only
      split
      · exact moves _
      · exact same
      · split
        · exact closes
        · exact same
      · exact same
  | item orClose =>
      simp only
      split
      · exact closes
      · exact begins
  | separator =>
      simp only
      split
      · split <;> exact moves _
      · exact closes
      · exact closes
      · exact same

end Passing

/-! ### One token -/

theorem push_skips (skips : walker.SkipsWithin token.span.start) (plan : Plan) (window : Window)
    (ordered : token.span.start ≤ token.span.stop) :
    (walker.push plan window token).1.SkipsWithin token.span.stop := by
  have le : walker.skipped ≤ token.span.stop := Nat.le_trans skips.le ordered
  unfold push
  split
  · rw [endOfInput_fst]
    exact skips.later ordered
  · split
    · rename_i stretch skip
      obtain ⟨behind, started⟩ := skips.stretch stretch skip
      simp only [Stretch.push_start]
      split
      · refine .of_passing (complete_skip _ none) ?_
        simp only [complete_skipped]
        omega
      · refine ⟨le, fun other same => ?_⟩
        cases same
        rw [Stretch.push_start]
        exact ⟨behind, Nat.le_trans started ordered⟩
    · rename_i passes
      split
      · rename_i key stretch captures
        simp only
        split
        · have delivered := deliverRaw_delivers { walker with raw := none } window key
            ⟨(stretch.push token.kind).start, token.span.stop⟩
          refine .of_passing ((complete_skip _ none).trans (delivered.skip.trans passes)) ?_
          simp only [complete_skipped, deliverRaw_skipped]
          exact le
        · exact .of_passing passes le
      · split
        · exact beginRoot_skips passes plan window skips.le ordered
        · exact pushFrame_skips passes plan.mode window _ _ skips.le ordered

end Walker
end JsonProjection
