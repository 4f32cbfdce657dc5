import JsonProjection.Proofs.Token.Brackets
import JsonProjection.Proofs.Walk.Sound

/-!
The open brackets of a walk.

Brackets are counted in three places: by the stack, by a stretch that is skipped, and by a stretch
that is a raw leaf. Together they are the brackets that the tokens so far have opened and not
closed.
-/

namespace JsonProjection

open Walk

namespace Walk

theorem Stretch.push_depth {stretch : Stretch} (opened : 0 < stretch.depth) (token : Token) :
    ((stretch.push token.kind).depth : Int) = stretch.depth + Token.balance [token] := by
  unfold push
  cases opens : token.kind.opens? with
  | some container =>
      rw [Token.balance_open opens]
      rfl
  | none =>
      cases closes : token.kind.closes? with
      | some container =>
          rw [Token.balance_close closes]
          simp only [Option.isSome_none, Option.isSome_some, Bool.false_eq_true, if_false, if_true]
          omega
      | none =>
          rw [Token.balance_none opens closes, Int.add_zero]
          rfl

end Walk

namespace Walker

variable {plan : Plan} {window : Window} {walker next : Walker} {token : Token}

@[simp]
theorem complete_openBrackets (walker : Walker) (value? : Option Json.Value) :
    (walker.complete value?).openBrackets = walker.openBrackets := by
  unfold openBrackets skipDepth captureDepth
  rw [complete_skip, complete_raw, complete_stack]
  cases walker.stack <;> rfl

theorem Delivers.openBrackets (delivers : Delivers walker next) :
    next.openBrackets = walker.openBrackets := by
  unfold Walker.openBrackets skipDepth captureDepth
  rw [delivers.stack, delivers.skip, delivers.raw]

/-! ### One token -/

theorem begin_depth {mode : EmitMode} {treatment : Treatment} (free : walker.Free)
    (begun : BeginStep walker mode treatment token next) :
    (next.openBrackets : Int) = walker.openBrackets + Token.balance [token] := by
  rw [free.openBrackets]
  cases begun with
  | scalar scalar delivers =>
      rw [complete_openBrackets, delivers.openBrackets, free.openBrackets,
        Token.balance_scalar scalar, Int.add_zero]
  | skip opens skipped =>
      rw [Token.balance_open opens]
      simp only [openBrackets, skipDepth, captureDepth, free.raw]
      rfl
  | capture opens captured =>
      rw [Token.balance_open opens]
      simp only [openBrackets, skipDepth, captureDepth, free.skip]
      rfl
  | @container container group built opens looked =>
      have stays : (walker.openFrame container group built).Free := ⟨free.skip, free.raw⟩
      rw [Token.balance_open opens, stays.openBrackets]
      rfl

theorem FrameStep.depth {mode : EmitMode} {frame : Frame} {rest : List Frame}
    (free : walker.Free) (stack : walker.stack = frame :: rest)
    (step : FrameStep walker mode window frame rest token next) :
    (next.openBrackets : Int) = walker.openBrackets + Token.balance [token] := by
  have moved {expect : Expect} :
      (expectNext frame rest expect walker).openBrackets = walker.openBrackets := by
    unfold openBrackets expectNext
    rw [stack]
    rfl
  cases step with
  | key expect kind =>
      rw [moved, Token.balance_none (by rw [kind]; rfl) (by rw [kind]; rfl), Int.add_zero]
  | colon expect kind =>
      rw [moved, Token.balance_none (by rw [kind]; rfl) (by rw [kind]; rfl), Int.add_zero]
  | comma separator kind follows =>
      rw [moved, Token.balance_none (by rw [kind]; rfl) (by rw [kind]; rfl), Int.add_zero]
  | close expect closed =>
      obtain ⟨top, below, split, closes, rfl⟩ := close_cases closed
      have popped : Free { walker with stack := below } := ⟨free.skip, free.raw⟩
      have left : ({ walker with stack := below }).openBrackets = below.length :=
        popped.openBrackets
      rw [complete_openBrackets, Token.balance_close closes, free.openBrackets, left, split,
        List.length_cons]
      omega
  | value expect begun => exact begin_depth free (begin_cases begun)

theorem push_depth (sound : walker.Sound) (inner : token.kind ≠ .endOfInput)
    (pushed : walker.push plan window token = (next, none)) :
    (next.openBrackets : Int) = walker.openBrackets + Token.balance [token] := by
  cases push_cases inner pushed with
  | skip skips still =>
      have inside := Stretch.push_depth (sound.skip _ skips).2 token
      simp only [openBrackets, skipDepth, captureDepth, skips]
      omega
  | skipped skips closed =>
      have inside := Stretch.push_depth (sound.skip _ skips).2 token
      rw [complete_openBrackets]
      simp only [openBrackets, skipDepth, captureDepth, skips]
      omega
  | @capture key stretch passes captures still =>
      have opened : 0 < stretch.depth := (sound.raw _ captures).2
      have inside := Stretch.push_depth opened token
      simp only [openBrackets, skipDepth, captureDepth, passes, captures]
      omega
  | @captured key stretch passes captures closed =>
      have opened : 0 < stretch.depth := (sound.raw _ captures).2
      have inside := Stretch.push_depth opened token
      have delivers := deliverRaw_delivers { walker with raw := none } window key
        ⟨stretch.start, token.span.stop⟩
      rw [complete_openBrackets, delivers.openBrackets]
      simp only [openBrackets, skipDepth, captureDepth, passes, captures]
      omega
  | root free stack first begun =>
      have moved := begin_depth ⟨by exact free.skip, by exact free.raw⟩ (begin_cases begun)
      exact moved
  | frame free stack step => exact step.depth free stack

/-! ### Many tokens -/

theorem walk_depth {tokens : List Token} (sound : walker.Sound)
    (inner : ∀ token ∈ tokens, token.kind ≠ .endOfInput)
    (walked : walker.walk plan window tokens = (next, none)) :
    (next.openBrackets : Int) = walker.openBrackets + Token.balance tokens := by
  refine (walk_keeps (P := fun middle seen => middle.Sound ∧
    (middle.openBrackets : Int) = walker.openBrackets + Token.balance seen) ?_ []
    ⟨sound, (Int.add_zero _).symm⟩ inner walked).2
  rintro middle next seen token ⟨sound, depth⟩ inner pushed
  refine ⟨push_sound sound inner pushed, ?_⟩
  rw [push_depth sound inner pushed, depth, Token.balance_append, Int.add_assoc]

end Walker
end JsonProjection
