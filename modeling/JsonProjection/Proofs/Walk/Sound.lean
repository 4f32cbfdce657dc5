import JsonProjection.Proofs.Walk.Run

/-!
What holds of a walker at every point of a walk, and how root values are counted.
-/

namespace JsonProjection

open Walk

def Walk.Frame.Sound (frame : Frame) : Prop :=
  match frame.expect with
  | .key _ => frame.container = .object
  | .colon _ => frame.container = .object
  | .value _ => frame.container = .object
  | .item _ => frame.container = .array
  | .separator => True

namespace Walker

/-- Every frame is sound. At most one stretch is under way, one that is passed over or a raw leaf,
and it has an open bracket and stands in a container. -/
structure Sound (walker : Walker) : Prop where
  frames : ∀ frame ∈ walker.stack, frame.Sound
  exclusive : walker.skip = none ∨ walker.raw = none
  skip : ∀ stretch, walker.skip = some stretch → walker.stack ≠ [] ∧ 0 < stretch.depth
  raw : ∀ capture, walker.raw = some capture → walker.stack ≠ [] ∧ 0 < capture.stretch.depth

def begun (walker : Walker) : Nat :=
  walker.roots + if walker.stack = [] then 0 else 1

variable {plan : Plan} {window : Window} {walker next : Walker}

theorem Free.skip_ne (free : walker.Free) (stretch : Stretch) : walker.skip ≠ some stretch := by
  rw [free.skip]
  exact (Option.some_ne_none stretch).symm

theorem Free.raw_ne (free : walker.Free) (capture : Capture) : walker.raw ≠ some capture := by
  rw [free.raw]
  exact (Option.some_ne_none capture).symm

theorem Free.sound (free : walker.Free) (frames : ∀ frame ∈ walker.stack, frame.Sound) :
    walker.Sound :=
  ⟨frames, Or.inl free.skip, fun stretch skips => absurd skips (free.skip_ne stretch),
    fun capture captures => absurd captures (free.raw_ne capture)⟩

theorem sound_new (single : Bool) : Sound { new with single } :=
  Free.sound ⟨rfl, rfl⟩ fun _ member => absurd member List.not_mem_nil

theorem Sound.congr (sound : walker.Sound) (stack : next.stack = walker.stack)
    (skip : next.skip = walker.skip) (raw : next.raw = walker.raw) : next.Sound := by
  obtain ⟨frames, exclusive, skipped, captured⟩ := sound
  constructor
  case frames =>
    rw [stack]
    exact frames
  case exclusive =>
    rw [skip, raw]
    exact exclusive
  case skip =>
    rw [stack, skip]
    exact skipped
  case raw =>
    rw [stack, raw]
    exact captured

theorem Sound.raw_none (sound : walker.Sound) {stretch : Stretch}
    (skips : walker.skip = some stretch) : walker.raw = none := by
  refine sound.exclusive.resolve_left fun none => ?_
  rw [none] at skips
  cases skips

theorem Sound.free_of_nil (sound : walker.Sound) (stack : walker.stack = []) : walker.Free := by
  constructor
  case skip =>
    cases skips : walker.skip with
    | none => rfl
    | some stretch => exact absurd stack (sound.skip stretch skips).1
  case raw =>
    cases captures : walker.raw with
    | none => rfl
    | some capture => exact absurd stack (sound.raw capture captures).1

/-! ### Soundness -/

theorem complete_frames (frames : ∀ frame ∈ walker.stack, frame.Sound)
    (value? : Option Json.Value) : ∀ frame ∈ (walker.complete value?).stack, frame.Sound := by
  rw [complete_stack]
  cases stack : walker.stack with
  | nil => exact fun _ member => absurd member List.not_mem_nil
  | cons top rest =>
      intro frame member
      rcases List.mem_cons.mp member with same | below
      · rw [same]
        trivial
      · rw [stack] at frames
        exact frames frame (List.mem_cons_of_mem top below)

theorem Free.complete_sound (free : walker.Free) (frames : ∀ frame ∈ walker.stack, frame.Sound)
    (value? : Option Json.Value) : (walker.complete value?).Sound :=
  (free.complete value?).sound (complete_frames frames value?)

theorem stack_ne_nil_of_grounded {treatment : Treatment}
    (grounded : walker.stack = [] → ∃ group, treatment = .project group)
    (passes : ∀ group, treatment ≠ .project group) : walker.stack ≠ [] := by
  intro empty
  obtain ⟨group, projects⟩ := grounded empty
  exact passes group projects

theorem begin_sound {mode : EmitMode} {treatment : Treatment} {token : Token}
    (free : walker.Free) (frames : ∀ frame ∈ walker.stack, frame.Sound)
    (grounded : walker.stack = [] → ∃ group, treatment = .project group)
    (begun : BeginStep walker mode treatment token next) : next.Sound := by
  cases begun with
  | scalar scalar delivers =>
      refine (delivers.free free).complete_sound ?_ _
      rw [delivers.stack]
      exact frames
  | skip opens skipped =>
      subst skipped
      refine ⟨frames, Or.inr free.raw, ?_, fun capture under => absurd under (free.raw_ne capture)⟩
      rintro stretch ⟨⟩
      exact ⟨stack_ne_nil_of_grounded grounded (fun _ => Treatment.noConfusion), Nat.one_pos⟩
  | capture opens captured =>
      subst captured
      refine ⟨frames, Or.inl free.skip,
        fun stretch under => absurd under (free.skip_ne stretch), ?_⟩
      rintro capture ⟨⟩
      exact ⟨stack_ne_nil_of_grounded grounded (fun _ => Treatment.noConfusion), Nat.one_pos⟩
  | @container container group built opens looked =>
      refine Free.sound ⟨free.skip, free.raw⟩ fun frame member => ?_
      rcases List.mem_cons.mp member with same | below
      · rw [same]
        cases container <;> rfl
      · exact frames frame below

theorem expectNext_sound {frame : Frame} {rest : List Frame} {expect : Expect}
    (free : walker.Free) (stack : walker.stack = frame :: rest)
    (frames : ∀ frame ∈ walker.stack, frame.Sound)
    (fits : Frame.Sound { frame with expect }) :
    (expectNext frame rest expect walker).Sound := by
  refine Free.sound ⟨free.skip, free.raw⟩ fun other member => ?_
  rcases List.mem_cons.mp member with same | below
  · rw [same]
    exact fits
  · rw [stack] at frames
    exact frames other (List.mem_cons_of_mem frame below)

theorem FrameStep.sound {mode : EmitMode} {frame : Frame} {rest : List Frame} {token : Token}
    (free : walker.Free) (stack : walker.stack = frame :: rest)
    (frames : ∀ frame ∈ walker.stack, frame.Sound)
    (step : FrameStep walker mode window frame rest token next) : next.Sound := by
  have own : frame.Sound := frames frame (by rw [stack]; exact List.mem_cons_self)
  unfold Frame.Sound at own
  cases step with
  | key expect kind =>
      rw [expect] at own
      exact expectNext_sound free stack frames own
  | colon expect kind =>
      rw [expect] at own
      exact expectNext_sound free stack frames own
  | comma separator kind follows =>
      rcases follows with ⟨container, rfl⟩ | ⟨container, rfl⟩
      · exact expectNext_sound free stack frames container
      · exact expectNext_sound free stack frames container
  | close expect closed =>
      obtain ⟨top, below, split, _, rfl⟩ := close_cases closed
      rw [split] at frames
      have below : Free { walker with stack := below } := ⟨free.skip, free.raw⟩
      exact below.complete_sound
        (fun other member => frames other (List.mem_cons_of_mem top member)) _
  | value expect begun =>
      refine begin_sound free frames (fun empty => ?_) (begin_cases begun)
      rw [stack] at empty
      cases empty

theorem push_sound (sound : walker.Sound) {token : Token} (inner : token.kind ≠ .endOfInput)
    (pushed : walker.push plan window token = (next, none)) : next.Sound := by
  cases push_cases inner pushed with
  | skip skips opened =>
      refine ⟨sound.frames, Or.inr (sound.raw_none skips), ?_, sound.raw⟩
      rintro stretch ⟨⟩
      exact ⟨(sound.skip _ skips).1, Nat.pos_of_ne_zero opened⟩
  | skipped skips closed =>
      -- No raw leaf was under way behind the stretch, so that the next token goes to the stack.
      refine Free.complete_sound ⟨?_, ?_⟩ ?_ none
      · rfl
      · exact sound.raw_none skips
      · exact sound.frames
  | capture passes captures opened =>
      refine ⟨sound.frames, Or.inl passes, sound.skip, ?_⟩
      rintro capture ⟨⟩
      exact ⟨(sound.raw _ captures).1, Nat.pos_of_ne_zero opened⟩
  | @captured key stretch passes captures closed =>
      have delivers := deliverRaw_delivers { walker with raw := none } window key
        ⟨stretch.start, token.span.stop⟩
      refine (delivers.free ⟨passes, rfl⟩).complete_sound ?_ none
      rw [delivers.stack]
      exact sound.frames
  | root free stack first begun =>
      have step := begin_cases begun
      refine begin_sound ⟨?_, ?_⟩ ?_ (fun _ => ⟨plan.group, rfl⟩) step
      · exact free.skip
      · exact free.raw
      · exact sound.frames
  | frame free stack step => exact step.sound free stack sound.frames

theorem walk_sound {tokens : List Token} (sound : walker.Sound)
    (inner : ∀ token ∈ tokens, token.kind ≠ .endOfInput)
    (walked : walker.walk plan window tokens = (next, none)) : next.Sound :=
  walk_keeps (P := fun walker _ => walker.Sound)
    (fun sound inner pushed => push_sound sound inner pushed) [] sound inner walked

/-! ### Root values -/

theorem complete_begun (walker : Walker) (value? : Option Json.Value) :
    (walker.complete value?).begun = walker.begun + if walker.stack = [] then 1 else 0 := by
  unfold begun
  rw [complete_stack, complete_roots]
  cases walker.stack with
  | nil => rfl
  | cons frame rest => simp only [reduceCtorEq, if_false, Nat.add_zero]

theorem Delivers.begun {walker next : Walker} (delivers : Delivers walker next) :
    next.begun = walker.begun := by
  unfold Walker.begun
  rw [delivers.roots, delivers.stack]

theorem begin_begun {mode : EmitMode} {treatment : Treatment} {token : Token}
    (grounded : walker.stack = [] → ∃ group, treatment = .project group)
    (begun : BeginStep walker mode treatment token next) :
    next.begun = walker.begun + if walker.stack = [] then 1 else 0 := by
  have unmoved (passes : ∀ group, treatment ≠ .project group) :
      walker.begun = walker.begun + if walker.stack = [] then 1 else 0 := by
    rw [if_neg (stack_ne_nil_of_grounded grounded passes), Nat.add_zero]
  cases begun with
  | scalar scalar delivers =>
      rw [complete_begun, delivers.begun, delivers.stack]
  | skip opens skipped =>
      subst skipped
      exact unmoved fun _ => Treatment.noConfusion
  | capture opens captured =>
      subst captured
      exact unmoved fun _ => Treatment.noConfusion
  | container opens looked =>
      unfold Walker.begun openFrame
      simp only [reduceCtorEq, if_false]
      split <;> rfl

/-- A root value begins where no container is open, and nowhere else. -/
theorem push_begun (sound : walker.Sound) {token : Token} (inner : token.kind ≠ .endOfInput)
    (pushed : walker.push plan window token = (next, none)) :
    next.begun = walker.begun + if walker.stack = [] then 1 else 0 := by
  cases push_cases inner pushed with
  | skip skips opened =>
      rw [if_neg (sound.skip _ skips).1]
      rfl
  | skipped skips closed => exact complete_begun _ none
  | capture passes captures opened =>
      rw [if_neg (sound.raw _ captures).1]
      rfl
  | @captured key stretch passes captures closed =>
      have delivers := deliverRaw_delivers { walker with raw := none } window key
        ⟨stretch.start, token.span.stop⟩
      rw [complete_begun, delivers.begun, delivers.stack]
      rfl
  | root free stack first begun =>
      have counted := begin_begun (fun _ => ⟨plan.group, rfl⟩) (begin_cases begun)
      exact counted
  | @frame _ top rest free stack step =>
      have opened : walker.stack ≠ [] := by
        rw [stack]
        exact List.cons_ne_nil top rest
      have moved {expect : Expect} : (expectNext top rest expect walker).begun = walker.begun := by
        unfold Walker.begun expectNext
        rw [stack, if_neg (List.cons_ne_nil _ _), if_neg (List.cons_ne_nil _ _)]
      cases step with
      | key expect kind => rw [if_neg opened, moved, Nat.add_zero]
      | colon expect kind => rw [if_neg opened, moved, Nat.add_zero]
      | comma separator kind follows => rw [if_neg opened, moved, Nat.add_zero]
      | close expect closed =>
          obtain ⟨frame, below, split, _, rfl⟩ := close_cases closed
          rw [complete_begun, if_neg opened]
          unfold Walker.begun
          rw [split, if_neg (List.cons_ne_nil frame below)]
          cases below <;> rfl
      | value expect begun =>
          exact begin_begun (fun empty => absurd empty opened) (begin_cases begun)

theorem walk_begun_le {tokens : List Token} (sound : walker.Sound)
    (inner : ∀ token ∈ tokens, token.kind ≠ .endOfInput)
    (walked : walker.walk plan window tokens = (next, none)) : walker.begun ≤ next.begun := by
  refine (walk_keeps (P := fun middle _ => middle.Sound ∧ walker.begun ≤ middle.begun) ?_ []
    ⟨sound, Nat.le_refl _⟩ inner walked).2
  rintro middle next seen token ⟨sound, le⟩ inner pushed
  refine ⟨push_sound sound inner pushed, ?_⟩
  rw [push_begun sound inner pushed]
  exact Nat.le_add_right_of_le le

theorem endOfInput_none {offset : Nat}
    (ended : (walker.endOfInput offset).2 = none) :
    walker.stack = [] ∧ (walker.single = true → walker.roots ≠ 0) := by
  unfold endOfInput at ended
  split at ended
  · cases ended
  · rename_i closed
    split at ended
    · cases ended
    · rename_i missing
      refine ⟨?_, fun single roots => missing ?_⟩
      · have length : walker.stack.length = 0 := by
          unfold openBrackets at closed
          omega
        exact List.eq_nil_of_length_eq_zero length
      · rw [single, roots]
        rfl

end Walker
end JsonProjection
