import JsonProjection.Proofs.Walk.Run

/-!
What a walk does not look at.

No step looks at the matches that were delivered before it. Whether one root value is wanted or
several plays a part only where a value begins behind a finished root value.
-/

namespace JsonProjection

open Walk

namespace Walker

def recast (walker : Walker) (earlier : List Match) (single : Bool) : Walker :=
  { walker with latest := walker.latest ++ earlier, single }

/-- No further root value is at hand, or none was finished so far. -/
def Room (walker : Walker) : Prop :=
  walker.Free → walker.stack = [] → walker.roots = 0

section Steps

variable (walker : Walker) (earlier : List Match) (single : Bool)

theorem complete_recast (value? : Option Json.Value) :
    (walker.recast earlier single).complete value? =
      (walker.complete value?).recast earlier single := by
  have stack : (walker.recast earlier single).stack = walker.stack := rfl
  unfold complete
  rw [stack]
  cases walker.stack with
  | nil => cases value? <;> rfl
  | cons frame rest =>
      simp only
      cases frame.building <;> cases value? <;> rfl

theorem deliverRaw_recast (window : Window) (key : String) (span : Span) :
    (walker.recast earlier single).deliverRaw window key span =
      (walker.deliverRaw window key span).recast earlier single := by
  unfold deliverRaw
  split <;> rfl

theorem close_recast (token : Token) :
    (walker.recast earlier single).close token =
      ((walker.close token).1.recast earlier single, (walker.close token).2) := by
  have stack : (walker.recast earlier single).stack = walker.stack := rfl
  unfold close
  rw [stack]
  cases walker.stack with
  | nil => rfl
  | cons frame rest =>
      simp only
      split
      · rw [← complete_recast]
        rfl
      · rfl

theorem begin_recast (mode : EmitMode) (window : Window) (treatment : Treatment) (token : Token) :
    (walker.recast earlier single).begin mode window treatment token =
      ((walker.begin mode window treatment token).1.recast earlier single,
        (walker.begin mode window treatment token).2) := by
  unfold begin
  cases token.kind.opens? with
  | some container => cases treatment <;> rfl
  | none =>
      cases token.kind.scalar? with
      | none => rfl
      | some value =>
          cases treatment with
          | skip =>
              simp only
              rw [← complete_recast]
              rfl
          | keep =>
              simp only
              rw [complete_recast]
          | capture name =>
              simp only
              rw [deliverRaw_recast, complete_recast]
          | project group =>
              cases mode with
              | materialize =>
                  simp only
                  rw [complete_recast]
              | raw =>
                  simp only
                  rw [complete_recast]

theorem pushFrame_recast (mode : EmitMode) (window : Window) (frame : Frame) (rest : List Frame)
    (token : Token) :
    (walker.recast earlier single).pushFrame mode window frame rest token =
      ((walker.pushFrame mode window frame rest token).1.recast earlier single,
        (walker.pushFrame mode window frame rest token).2) := by
  have begins := begin_recast walker earlier single mode window (frame.treatment mode) token
  have closes := close_recast walker earlier single token
  unfold pushFrame
  cases frame.expect with
  | value key => exact begins
  | colon key => cases token.kind <;> rfl
  | key orClose => cases token.kind <;> cases orClose <;> first | rfl | exact closes
  | separator =>
      cases frame.container <;> cases token.kind <;> first | rfl | exact closes
  | item orClose =>
      simp only
      split
      · exact closes
      · exact begins

theorem beginRoot_recast (plan : Plan) (window : Window) (token : Token)
    (free : single = walker.single ∨ walker.roots = 0) :
    (walker.recast earlier single).beginRoot plan window token =
      ((walker.beginRoot plan window token).1.recast earlier single,
        (walker.beginRoot plan window token).2) := by
  have full : (single && decide (0 < (walker.recast earlier single).roots)) =
      (walker.single && decide (0 < walker.roots)) := by
    rcases free with rfl | none
    · rfl
    · have noRoot : (walker.recast earlier single).roots = 0 := none
      rw [noRoot, none]
      cases single <;> cases walker.single <;> rfl
  have own : (walker.recast earlier single).single = single := rfl
  unfold beginRoot
  rw [own, full]
  split
  · rfl
  · rw [← begin_recast]
    rfl

theorem push_recast (plan : Plan) (window : Window) (token : Token)
    (inner : token.kind ≠ .endOfInput) (free : single = walker.single ∨ walker.Room) :
    (walker.recast earlier single).push plan window token =
      ((walker.push plan window token).1.recast earlier single,
        (walker.push plan window token).2) := by
  have skipEq : (walker.recast earlier single).skip = walker.skip := rfl
  have rawEq : (walker.recast earlier single).raw = walker.raw := rfl
  have stackEq : (walker.recast earlier single).stack = walker.stack := rfl
  unfold push
  rw [if_neg inner, if_neg inner, skipEq, rawEq, stackEq]
  split
  · simp only
    split
    · rw [← complete_recast]
      rfl
    · rfl
  · rename_i passes
    split
    · simp only
      split
      · rw [← complete_recast, ← deliverRaw_recast]
        rfl
      · rfl
    · rename_i idle
      cases stack : walker.stack with
      | nil =>
          apply beginRoot_recast
          exact free.imp_right fun room => room ⟨passes, idle⟩ stack
      | cons frame rest =>
          exact pushFrame_recast walker earlier single plan.mode window frame rest token

theorem recast_self : walker.recast [] walker.single = walker := by
  unfold recast
  rw [List.append_nil]

theorem push_fst_single (plan : Plan) (window : Window) (token : Token) :
    (walker.push plan window token).1.single = walker.single := by
  by_cases ends : token.kind = .endOfInput
  · unfold push
    rw [if_pos ends, endOfInput_fst]
  · have same := push_recast walker [] walker.single plan window token ends (Or.inl rfl)
    rw [recast_self] at same
    exact congrArg (fun pushed => pushed.1.single) same

end Steps

/-! ### Matches delivered earlier -/

def withEarlier (walker : Walker) (earlier : List Match) : Walker :=
  { walker with latest := walker.latest ++ earlier }

theorem push_withEarlier (plan : Plan) (window : Window) (walker : Walker) (earlier : List Match)
    (token : Token) :
    (walker.withEarlier earlier).push plan window token =
      ((walker.push plan window token).1.withEarlier earlier,
        (walker.push plan window token).2) := by
  by_cases ends : token.kind = .endOfInput
  · unfold push
    rw [if_pos ends, if_pos ends, endOfInput_fst]
    apply Prod.ext
    · exact endOfInput_fst _ _
    · apply endOfInput_snd_congr <;> rfl
  · have same := push_recast walker earlier walker.single plan window token ends (Or.inl rfl)
    have kept := push_fst_single walker plan window token
    refine same.trans ?_
    rw [← kept]
    rfl

end Walker
end JsonProjection
