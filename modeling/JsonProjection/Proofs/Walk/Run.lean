import JsonProjection.Projection.Engine
import JsonProjection.Proofs.Token.Scan

/-!
Walks along lists of tokens, and what the parts of a step leave alone.
-/

namespace JsonProjection

open Walk

namespace Walk

@[simp]
theorem Stretch.push_start (stretch : Stretch) (kind : Token.Kind) :
    (stretch.push kind).start = stretch.start := by
  unfold Stretch.push
  repeat' split
  all_goals rfl

end Walk

namespace Walker

def walk (plan : Plan) (window : Window) (walker : Walker) (tokens : List Token) :
    Walker × Option StructuralError :=
  Token.handAll (fun walker token => walker.push plan window token) walker tokens

variable {plan : Plan} {window : Window} {walker next : Walker}

@[simp]
theorem walk_nil (plan : Plan) (window : Window) (walker : Walker) :
    walker.walk plan window [] = (walker, none) :=
  rfl

theorem walk_cons_ok {token : Token} (pushed : walker.push plan window token = (next, none))
    (rest : List Token) :
    walker.walk plan window (token :: rest) = next.walk plan window rest :=
  Token.handAll_cons_ok pushed rest

theorem walk_cons_error {token : Token} {error : StructuralError}
    (pushed : walker.push plan window token = (next, some error)) (rest : List Token) :
    walker.walk plan window (token :: rest) = (next, some error) :=
  Token.handAll_cons_error pushed rest

theorem walk_append_ok {first : List Token}
    (walked : walker.walk plan window first = (next, none)) (second : List Token) :
    walker.walk plan window (first ++ second) = next.walk plan window second :=
  Token.handAll_append_ok walked second

theorem walk_append_error {first : List Token} {error : StructuralError}
    (walked : walker.walk plan window first = (next, some error)) (second : List Token) :
    walker.walk plan window (first ++ second) = (next, some error) :=
  Token.handAll_append_error walked second

theorem walk_cons_eq_none {token : Token} {rest : List Token}
    (walked : walker.walk plan window (token :: rest) = (next, none)) :
    ∃ middle, walker.push plan window token = (middle, none) ∧
      middle.walk plan window rest = (next, none) := by
  rcases pushed : walker.push plan window token with ⟨middle, _ | error⟩
  · rw [walk_cons_ok pushed] at walked
    exact ⟨middle, rfl, walked⟩
  · rw [walk_cons_error pushed] at walked
    cases walked

/-- What every token keeps, a walk keeps. The invariant may speak of the tokens so far. -/
theorem walk_keeps {P : Walker → List Token → Prop}
    (step : ∀ {walker next : Walker} {seen : List Token} {token : Token}, P walker seen →
      token.kind ≠ .endOfInput → walker.push plan window token = (next, none) →
      P next (seen ++ [token]))
    (seen : List Token) {tokens : List Token} (start : P walker seen)
    (inner : ∀ token ∈ tokens, token.kind ≠ .endOfInput)
    (walked : walker.walk plan window tokens = (next, none)) : P next (seen ++ tokens) := by
  induction tokens generalizing walker seen with
  | nil =>
      cases walked
      rw [List.append_nil]
      exact start
  | cons token rest ih =>
      obtain ⟨middle, pushed, behind⟩ := walk_cons_eq_none walked
      have further := ih (seen ++ [token]) (step start (inner token List.mem_cons_self) pushed)
        (fun other member => inner other (List.mem_cons_of_mem token member)) behind
      rw [List.append_assoc] at further
      exact further

theorem walk_eq_some {tokens : List Token} {error : StructuralError}
    (walked : walker.walk plan window tokens = (next, some error)) :
    ∃ before token after middle, tokens = before ++ token :: after ∧
      walker.walk plan window before = (middle, none) ∧
      middle.push plan window token = (next, some error) := by
  induction tokens generalizing walker with
  | nil => cases walked
  | cons token rest ih =>
      rcases pushed : walker.push plan window token with ⟨middle, _ | refusal⟩
      · rw [walk_cons_ok pushed] at walked
        obtain ⟨before, refused, after, last, split, through, final⟩ := ih walked
        refine ⟨token :: before, refused, after, last, ?_, ?_, final⟩
        · rw [split, List.cons_append]
        · rw [walk_cons_ok pushed, through]
      · rw [walk_cons_error pushed] at walked
        cases walked
        exact ⟨[], token, rest, walker, rfl, rfl, pushed⟩

theorem handAll_handle (plan : Plan) (window : Window) (walker : Walker) (tokens : List Token) :
    Token.handAll (Engine.handle plan window) walker tokens =
      ((walker.walk plan window tokens).1,
        (walker.walk plan window tokens).2.map DocumentError.structural) := by
  induction tokens generalizing walker with
  | nil => rfl
  | cons token rest ih =>
      rcases pushed : walker.push plan window token with ⟨middle, _ | error⟩
      · have handed : Engine.handle plan window walker token = (middle, none) := by
          simp only [Engine.handle, pushed, Option.map_none]
        rw [Token.handAll_cons_ok handed, walk_cons_ok pushed, ih middle]
      · have handed :
            Engine.handle plan window walker token = (middle, some (.structural error)) := by
          simp only [Engine.handle, pushed, Option.map_some]
        rw [Token.handAll_cons_error handed, walk_cons_error pushed]
        rfl

/-! ### The end of input -/

@[simp]
theorem endOfInput_fst (walker : Walker) (offset : Nat) :
    (walker.endOfInput offset).1 = walker := by
  unfold endOfInput
  split
  · rfl
  · split <;> rfl

theorem endOfInput_snd_congr {walker other : Walker}
    (opened : walker.openBrackets = other.openBrackets)
    (missing : (walker.single && walker.roots == 0) = (other.single && other.roots == 0))
    (offset : Nat) : (walker.endOfInput offset).2 = (other.endOfInput offset).2 := by
  unfold endOfInput
  rw [opened, missing]
  split
  · rfl
  · split <;> rfl

/-! ### Completing a value -/

theorem complete_of_nil (stack : walker.stack = []) (value? : Option Json.Value) :
    walker.complete value? =
      match value? with
      | some value => { walker with roots := walker.roots + 1 }.deliver (.value value)
      | none => { walker with roots := walker.roots + 1 } := by
  cases value? <;> simp only [complete, stack]

theorem complete_of_cons {frame : Frame} {rest : List Frame} (stack : walker.stack = frame :: rest)
    (value? : Option Json.Value) :
    walker.complete value? =
      match frame.building, value? with
      | .records, some value =>
        { walker with stack := frame.accept value? :: rest }.deliver (.value value)
      | _, _ => { walker with stack := frame.accept value? :: rest } := by
  cases building : frame.building <;> cases value? <;> simp only [complete, stack, building]

@[simp]
theorem complete_skip (walker : Walker) (value? : Option Json.Value) :
    (walker.complete value?).skip = walker.skip := by
  cases stack : walker.stack with
  | nil =>
      rw [complete_of_nil stack]
      cases value? <;> rfl
  | cons frame rest =>
      rw [complete_of_cons stack]
      split <;> rfl

@[simp]
theorem complete_raw (walker : Walker) (value? : Option Json.Value) :
    (walker.complete value?).raw = walker.raw := by
  cases stack : walker.stack with
  | nil =>
      rw [complete_of_nil stack]
      cases value? <;> rfl
  | cons frame rest =>
      rw [complete_of_cons stack]
      split <;> rfl

@[simp]
theorem complete_carry (walker : Walker) (value? : Option Json.Value) :
    (walker.complete value?).carry = walker.carry := by
  cases stack : walker.stack with
  | nil =>
      rw [complete_of_nil stack]
      cases value? <;> rfl
  | cons frame rest =>
      rw [complete_of_cons stack]
      split <;> rfl

theorem complete_stack (walker : Walker) (value? : Option Json.Value) :
    (walker.complete value?).stack =
      match walker.stack with
      | [] => []
      | frame :: rest => frame.accept value? :: rest := by
  cases stack : walker.stack with
  | nil =>
      rw [complete_of_nil stack]
      cases value? <;> exact stack
  | cons frame rest =>
      rw [complete_of_cons stack]
      split <;> rfl

theorem complete_roots (walker : Walker) (value? : Option Json.Value) :
    (walker.complete value?).roots =
      match walker.stack with
      | [] => walker.roots + 1
      | _ :: _ => walker.roots := by
  cases stack : walker.stack with
  | nil =>
      rw [complete_of_nil stack]
      cases value? <;> rfl
  | cons frame rest =>
      rw [complete_of_cons stack]
      split <;> rfl

/-! ### What a step can do -/

/-- Tokens go to the stack: nothing is passed over, and no raw leaf is under way in brackets. -/
structure Free (walker : Walker) : Prop where
  skip : walker.skip = none
  raw : walker.raw = none

theorem Free.complete (free : walker.Free) (value? : Option Json.Value) :
    (walker.complete value?).Free :=
  ⟨(complete_skip walker value?).trans free.skip, (complete_raw walker value?).trans free.raw⟩

theorem Free.openBrackets (free : walker.Free) : walker.openBrackets = walker.stack.length := by
  rw [Walker.openBrackets, skipDepth, captureDepth, free.skip, free.raw]
  rfl

def expectNext (frame : Frame) (rest : List Frame) (expect : Expect) (walker : Walker) : Walker :=
  { walker with stack := { frame with expect } :: rest }

/-- All that a token can do in a container if it is not refused. -/
inductive FrameStep (walker : Walker) (mode : EmitMode) (window : Window) (frame : Frame)
    (rest : List Frame) (token : Token) : Walker → Prop where
  | key {orClose : Bool} {name : String} (expect : frame.expect = .key orClose)
      (kind : token.kind = .string name) :
      FrameStep walker mode window frame rest token
        (expectNext frame rest (.colon (frame.key name)) walker)
  | colon {key : Key} (expect : frame.expect = .colon key) (kind : token.kind = .colon) :
      FrameStep walker mode window frame rest token (expectNext frame rest (.value key) walker)
  | comma {expect : Expect} (separator : frame.expect = .separator) (kind : token.kind = .comma)
      (follows : (frame.container = .object ∧ expect = .key false) ∨
        (frame.container = .array ∧ expect = .item false)) :
      FrameStep walker mode window frame rest token (expectNext frame rest expect walker)
  | close {next : Walker}
      (expect : (frame.expect = .key true ∧ token.kind = .closeObject) ∨
        (frame.expect = .item true ∧ token.kind = .closeArray) ∨ frame.expect = .separator)
      (closed : walker.close token = (next, none)) :
      FrameStep walker mode window frame rest token next
  | value {next : Walker}
      (expect : (∃ key, frame.expect = .value key) ∨ ∃ orClose, frame.expect = .item orClose ∧
        ¬(orClose = true ∧ token.kind = .closeArray))
      (begun : walker.begin mode window (frame.treatment mode) token = (next, none)) :
      FrameStep walker mode window frame rest token next

theorem pushFrame_cases {mode : EmitMode} {window : Window} {frame : Frame} {rest : List Frame}
    {token : Token} (pushed : walker.pushFrame mode window frame rest token = (next, none)) :
    FrameStep walker mode window frame rest token next := by
  unfold pushFrame at pushed
  cases expect : frame.expect with
  | value key =>
      rw [expect] at pushed
      exact .value (Or.inl ⟨key, expect⟩) pushed
  | item orClose =>
      rw [expect] at pushed
      simp only at pushed
      split at pushed
      · rename_i closes
        have both : orClose = true ∧ token.kind = .closeArray := by
          simpa only [Bool.and_eq_true, decide_eq_true_eq] using closes
        refine .close (Or.inr (Or.inl ⟨?_, both.2⟩)) pushed
        rw [expect, both.1]
      · rename_i opens
        refine .value (Or.inr ⟨orClose, expect, ?_⟩) pushed
        simpa only [Bool.and_eq_true, decide_eq_true_eq] using opens
  | colon key =>
      rw [expect] at pushed
      simp only at pushed
      split at pushed
      · rename_i kind
        cases pushed
        exact .colon expect kind
      · cases pushed
  | key orClose =>
      rw [expect] at pushed
      simp only at pushed
      split at pushed
      · rename_i name kind
        cases pushed
        exact .key expect kind
      · cases pushed
      · rename_i kind
        cases orClose with
        | true => exact .close (Or.inl ⟨expect, kind⟩) pushed
        | false => cases pushed
      · cases pushed
  | separator =>
      rw [expect] at pushed
      simp only at pushed
      split at pushed
      · rename_i kind
        cases container : frame.container with
        | object =>
            rw [container] at pushed
            cases pushed
            exact .comma expect kind (Or.inl ⟨container, rfl⟩)
        | array =>
            rw [container] at pushed
            cases pushed
            exact .comma expect kind (Or.inr ⟨container, rfl⟩)
      · exact .close (Or.inr (Or.inr expect)) pushed
      · exact .close (Or.inr (Or.inr expect)) pushed
      · cases pushed

theorem close_cases {token : Token} (closed : walker.close token = (next, none)) :
    ∃ frame rest, walker.stack = frame :: rest ∧ token.kind.closes? = some frame.container ∧
      next = { walker with stack := rest }.complete frame.result? := by
  unfold close at closed
  cases stack : walker.stack with
  | nil =>
      rw [stack] at closed
      cases closed
  | cons frame rest =>
      rw [stack] at closed
      simp only at closed
      split at closed
      · rename_i fits
        cases closed
        exact ⟨frame, rest, rfl, fits, rfl⟩
      · cases closed

/-- A walker with more deliveries or with carried bytes given up, and nothing else changed. -/
structure Delivers (walker next : Walker) : Prop where
  stack : next.stack = walker.stack
  skip : next.skip = walker.skip
  raw : next.raw = walker.raw
  roots : next.roots = walker.roots
  single : next.single = walker.single
  shape : next.shape = walker.shape

theorem deliverRaw_delivers (walker : Walker) (window : Window) (key : String) (span : Span) :
    Delivers walker (walker.deliverRaw window key span) := by
  unfold deliverRaw
  split <;> exact ⟨rfl, rfl, rfl, rfl, rfl, rfl⟩

theorem Delivers.free (delivers : Delivers walker next) (free : walker.Free) : next.Free :=
  ⟨delivers.skip.trans free.skip, delivers.raw.trans free.raw⟩

/-- All that a token can do where a value has to start if it is not refused. -/
inductive BeginStep (walker : Walker) (mode : EmitMode) (treatment : Treatment) (token : Token) :
    Walker → Prop where
  | scalar {delivered : Walker} {value : Json.Value} {value? : Option Json.Value}
      (scalar : token.kind.scalar? = some value) (delivers : Delivers walker delivered) :
      BeginStep walker mode treatment token (delivered.complete value?)
  | skip {container : Container} (opens : token.kind.opens? = some container)
      (skipped : treatment = .skip) :
      BeginStep walker mode treatment token
        { walker with skip := some ⟨1, token.span.start⟩ }
  | capture {container : Container} {name : String} (opens : token.kind.opens? = some container)
      (captured : treatment = .capture name) :
      BeginStep walker mode treatment token
        { walker with raw := some ⟨name, ⟨1, token.span.start⟩⟩ }
  | container {container : Container} {group : Option Group} {building : Building}
      (opens : token.kind.opens? = some container)
      (looked : (treatment = .keep ∧ group = none) ∨ ∃ wanted, treatment = .project wanted ∧
        group = some wanted) :
      BeginStep walker mode treatment token (walker.openFrame container group building)

theorem begin_cases {mode : EmitMode} {window : Window} {treatment : Treatment} {token : Token}
    (begun : walker.begin mode window treatment token = (next, none)) :
    BeginStep walker mode treatment token next := by
  have same : Delivers walker walker := ⟨rfl, rfl, rfl, rfl, rfl, rfl⟩
  unfold begin at begun
  cases opens : token.kind.opens? with
  | some container =>
      rw [opens] at begun
      cases treatment with
      | skip =>
          cases begun
          exact .skip opens rfl
      | capture name =>
          cases begun
          exact .capture opens rfl
      | keep =>
          cases begun
          exact .container opens (Or.inl ⟨rfl, rfl⟩)
      | project group =>
          cases begun
          exact .container opens (Or.inr ⟨group, rfl, rfl⟩)
  | none =>
      rw [opens] at begun
      cases scalar : token.kind.scalar? with
      | none =>
          rw [scalar] at begun
          cases begun
      | some value =>
          rw [scalar] at begun
          cases treatment with
          | skip =>
              cases begun
              exact .scalar scalar ⟨rfl, rfl, rfl, rfl, rfl, rfl⟩
          | capture name =>
              cases begun
              exact .scalar scalar (deliverRaw_delivers walker window name token.span)
          | keep =>
              cases begun
              exact .scalar scalar same
          | project group =>
              cases mode <;> cases begun <;> exact .scalar scalar same

/-- All that a token inside the input can do if it is not refused. -/
inductive Step (plan : Plan) (window : Window) (walker : Walker) (token : Token) :
    Walker → Prop where
  | skip {stretch : Stretch} (skips : walker.skip = some stretch)
      (opened : (stretch.push token.kind).depth ≠ 0) :
      Step plan window walker token { walker with skip := some (stretch.push token.kind) }
  | skipped {stretch : Stretch} (skips : walker.skip = some stretch)
      (closed : (stretch.push token.kind).depth = 0) :
      Step plan window walker token
        ({ walker with
          skip := none
          skipped := walker.skipped + (token.span.stop - stretch.start) }.complete none)
  | capture {key : String} {stretch : Stretch} (passes : walker.skip = none)
      (captures : walker.raw = some ⟨key, stretch⟩)
      (opened : (stretch.push token.kind).depth ≠ 0) :
      Step plan window walker token { walker with raw := some ⟨key, stretch.push token.kind⟩ }
  | captured {key : String} {stretch : Stretch} (passes : walker.skip = none)
      (captures : walker.raw = some ⟨key, stretch⟩)
      (closed : (stretch.push token.kind).depth = 0) :
      Step plan window walker token
        (({ walker with raw := none }.deliverRaw window key
          ⟨stretch.start, token.span.stop⟩).complete none)
  | root {next : Walker} (free : walker.Free) (stack : walker.stack = [])
      (first : ¬(walker.single = true ∧ 0 < walker.roots))
      (begun : { walker with
          shape := some (if token.kind = Token.Kind.openArray then RootShape.array
            else RootShape.single) }.begin
        plan.mode window (.project plan.group) token = (next, none)) :
      Step plan window walker token next
  | frame {next : Walker} {frame : Frame} {rest : List Frame} (free : walker.Free)
      (stack : walker.stack = frame :: rest)
      (step : FrameStep walker plan.mode window frame rest token next) :
      Step plan window walker token next

theorem push_cases {token : Token} (inner : token.kind ≠ .endOfInput)
    (pushed : walker.push plan window token = (next, none)) :
    Step plan window walker token next := by
  unfold push at pushed
  rw [if_neg inner] at pushed
  split at pushed
  · rename_i stretch skips
    simp only [Stretch.push_start] at pushed
    split at pushed
    · rename_i closed
      cases pushed
      exact .skipped skips closed
    · rename_i opened
      cases pushed
      exact .skip skips opened
  · rename_i passes
    split at pushed
    · rename_i key stretch captures
      simp only [Stretch.push_start] at pushed
      split at pushed
      · rename_i closed
        cases pushed
        exact .captured passes captures closed
      · rename_i opened
        cases pushed
        exact .capture passes captures opened
    · rename_i idle
      have free : walker.Free := ⟨passes, idle⟩
      cases stack : walker.stack with
      | nil =>
          rw [stack] at pushed
          simp only [beginRoot] at pushed
          split at pushed
          · cases pushed
          · rename_i first
            refine .root free stack ?_ pushed
            simpa only [Bool.and_eq_true, decide_eq_true_eq] using first
      | cons frame rest =>
          rw [stack] at pushed
          exact .frame free stack (pushFrame_cases pushed)

end Walker
end JsonProjection
