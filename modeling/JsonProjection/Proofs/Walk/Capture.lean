import JsonProjection.Proofs.Walk.Carry
import JsonProjection.Proofs.Walk.Depth

/-!
Raw leaves under way.

A raw leaf is cut out where the innermost container waits for its value. As long as the brackets of
the leaf are counted that container waits on, and the tokens since the first bracket have not closed
it.
-/

namespace JsonProjection

open Walk

/-! ### Brackets that are still open -/

/-- Tokens from an opening bracket at some offset on, of which none closes it. -/
structure Token.Unclosed (start : Nat) (tokens : List Token) : Prop where
  opening : ∃ token rest, tokens = token :: rest ∧ token.span.start = start ∧
    token.kind.opens?.isSome = true
  balance : ∀ front, front <+: tokens → front ≠ [] → 0 < Token.balance front

namespace Token

variable {start : Nat} {tokens : List Token} {token : Token}

theorem Unclosed.ne_nil (unclosed : Unclosed start tokens) : tokens ≠ [] := by
  obtain ⟨token, rest, rfl, -⟩ := unclosed.opening
  exact List.cons_ne_nil token rest

theorem Unclosed.opened (unclosed : Unclosed start tokens) : 0 < Token.balance tokens :=
  unclosed.balance tokens List.prefix_rfl unclosed.ne_nil

theorem unclosed_singleton {container : Container} (opens : token.kind.opens? = some container) :
    Unclosed token.span.start [token] := by
  refine ⟨⟨token, [], rfl, rfl, by rw [opens]; rfl⟩, ?_⟩
  intro front behind some
  rcases List.prefix_cons_iff.mp behind with none | ⟨rest, rfl, none⟩
  · exact absurd none some
  · rw [List.prefix_nil.mp none, balance_open opens]
    exact Int.one_pos

theorem Unclosed.snoc (unclosed : Unclosed start tokens)
    (opened : 0 < Token.balance (tokens ++ [token])) : Unclosed start (tokens ++ [token]) := by
  obtain ⟨first, rest, split, place, opens⟩ := unclosed.opening
  refine ⟨⟨first, rest ++ [token], by rw [split, List.cons_append], place, opens⟩, ?_⟩
  intro front behind some
  rcases List.prefix_concat_iff.mp behind with rfl | before
  · exact opened
  · exact unclosed.balance front before some

end Token

/-! ### Where a raw leaf may stand -/

def Walk.Frame.AtLeaf (frame : Frame) (name : String) : Prop :=
  ∃ group index, frame.container = .object ∧ frame.group = some group ∧
    frame.expect = .value (.field index) ∧ group.fields[index]? = some (name, .leaf)

def Walker.AtLeaf (walker : Walker) (name : String) : Prop :=
  ∃ frame rest, walker.stack = frame :: rest ∧ frame.AtLeaf name

theorem Walk.Frame.treatment_eq_capture {frame : Frame} {mode : EmitMode} {name : String} :
    frame.treatment mode = .capture name ↔ mode = .raw ∧ frame.AtLeaf name := by
  constructor
  · intro captures
    rcases frame with ⟨container, group, expect, building⟩
    unfold Frame.treatment at captures
    split at captures
    · cases captures
    · rename_i group grouped
      split at captures
      · cases captures
      · rename_i index container expect
        split at captures
        · cases captures
        · rename_i field
          cases captures
          exact ⟨rfl, group, index, container, grouped, expect, field⟩
        · cases captures
        · cases captures
      · cases captures
  · rintro ⟨rfl, group, index, container, grouped, expect, field⟩
    simp only [Frame.treatment, grouped, container, expect, field]

namespace Walker

variable {plan : Plan} {window : Window} {walker next : Walker} {token : Token}
  {tokens : List Token}

theorem AtLeaf.unique {name other : String} (one : walker.AtLeaf name)
    (two : walker.AtLeaf other) : other = name := by
  obtain ⟨frame, rest, stack, group, index, -, grouped, expect, field⟩ := one
  obtain ⟨frame, rest, same, group, index, -, regrouped, expected, found⟩ := two
  rw [stack] at same
  cases same
  rw [grouped] at regrouped
  cases regrouped
  rw [expect] at expected
  cases expected
  rw [field] at found
  cases found
  rfl

theorem awaitsRawLeaf_raw :
    walker.awaitsRawLeaf .raw = true ↔ walker.Free ∧ ∃ name, walker.AtLeaf name := by
  unfold awaitsRawLeaf
  rw [Bool.and_eq_true, Bool.and_eq_true, Option.isNone_iff_eq_none, Option.isNone_iff_eq_none]
  constructor
  · rintro ⟨⟨passes, idle⟩, awaits⟩
    refine ⟨⟨passes, idle⟩, ?_⟩
    split at awaits
    · cases awaits
    · rename_i frame rest stack
      split at awaits
      · rename_i name expect captures
        exact ⟨name, frame, rest, stack, (Frame.treatment_eq_capture.mp captures).2⟩
      · cases awaits
  · rintro ⟨free, name, frame, rest, stack, leaf⟩
    have captures := Frame.treatment_eq_capture.mpr ⟨rfl, leaf⟩
    obtain ⟨group, index, -, -, expect, -⟩ := leaf
    refine ⟨⟨free.skip, free.raw⟩, ?_⟩
    simp only [stack, expect, captures]

/-- A raw leaf is under way from an offset on: a container whose brackets are being counted, or a
scalar whose token, which started at `pendingStart?`, is not complete. -/
inductive OpenLeaf (walker : Walker) (pendingStart? : Option Nat) (name : String) : Nat → Prop where
  | container {stretch : Stretch} (captures : walker.raw = some ⟨name, stretch⟩) :
      OpenLeaf walker pendingStart? name stretch.start
  | scalar {start : Nat} (free : walker.Free) (leaf : walker.AtLeaf name)
      (under : pendingStart? = some start) : OpenLeaf walker pendingStart? name start

theorem OpenLeaf.unique {pendingStart? : Option Nat} {name other : String} {start place : Nat}
    (one : walker.OpenLeaf pendingStart? name start)
    (two : walker.OpenLeaf pendingStart? other place) : other = name ∧ place = start := by
  cases one with
  | container captures =>
      cases two with
      | container same =>
          rw [captures] at same
          cases same
          exact ⟨rfl, rfl⟩
      | scalar free leaf under =>
          rw [free.raw] at captures
          cases captures
  | scalar free leaf under =>
      cases two with
      | container captures =>
          rw [free.raw] at captures
          cases captures
      | scalar _ otherLeaf same =>
          rw [under] at same
          exact ⟨leaf.unique otherLeaf, (Option.some.inj same).symm⟩

theorem rawStart?_iff_openLeaf {pendingStart? : Option Nat} {start : Nat} :
    walker.rawStart? .raw pendingStart? = some start ↔
      ∃ name, walker.OpenLeaf pendingStart? name start := by
  have awaits := walker.awaitsRawLeaf_raw
  unfold rawStart?
  constructor
  · intro started
    split at started
    · rename_i capture captures
      cases started
      exact ⟨capture.key, .container captures⟩
    · split at started
      · rename_i waits
        obtain ⟨free, name, leaf⟩ := awaits.mp waits
        exact ⟨name, .scalar free leaf started⟩
      · cases started
  · rintro ⟨name, captures | ⟨free, leaf, under⟩⟩
    · simp only [captures]
    · simp only [free.raw, awaits.mpr ⟨free, name, leaf⟩, if_true, under]

/-! ### Raw leaves whose brackets are counted -/

/-- Behind some tokens a raw leaf whose brackets are counted goes on from its first bracket, at as
many open brackets as are counted. The tokens go into it, and the innermost container waits for
it. -/
def Captures (walker : Walker) (tokens : List Token) : Prop :=
  ∀ name stretch, walker.raw = some ⟨name, stretch⟩ →
    walker.skip = none ∧ walker.AtLeaf name ∧
      ∃ front inside, tokens = front ++ inside ∧ Token.Unclosed stretch.start inside ∧
        Token.balance inside = stretch.depth

theorem Captures.of_idle (idle : walker.raw = none) (tokens : List Token) :
    walker.Captures tokens := by
  intro name stretch captures
  rw [idle] at captures
  cases captures

theorem Captures.congr (captures : walker.Captures tokens) (stack : next.stack = walker.stack)
    (skip : next.skip = walker.skip) (raw : next.raw = walker.raw) : next.Captures tokens := by
  unfold Captures AtLeaf
  rw [stack, skip, raw]
  exact captures

theorem Captures.raw_none (captures : walker.Captures tokens) {stretch : Stretch}
    (skips : walker.skip = some stretch) : walker.raw = none := by
  cases under : walker.raw with
  | none => rfl
  | some capture =>
      have passes := (captures capture.key capture.stretch under).1
      rw [skips] at passes
      cases passes

theorem begin_captures {mode : EmitMode} {treatment : Treatment}
    (free : walker.Free)
    (leaf : ∀ name, treatment = .capture name → walker.AtLeaf name)
    (begun : BeginStep walker mode treatment token next) (tokens : List Token) :
    next.Captures (tokens ++ [token]) := by
  cases begun with
  | scalar scalar delivers =>
      exact .of_idle ((delivers.free free).complete _).raw _
  | skip opens skipped => exact .of_idle (by exact free.raw) _
  | capture opens captured =>
      rintro name stretch ⟨⟩
      refine ⟨free.skip, leaf _ captured, tokens, [token], rfl, Token.unclosed_singleton opens, ?_⟩
      rw [Token.balance_open opens]
      rfl
  | container opens looked => exact .of_idle (by exact free.raw) _

theorem FrameStep.captures {mode : EmitMode} {frame : Frame} {rest : List Frame}
    (free : walker.Free) (stack : walker.stack = frame :: rest)
    (step : FrameStep walker mode window frame rest token next) (tokens : List Token) :
    next.Captures (tokens ++ [token]) := by
  cases step with
  | key expect kind => exact .of_idle (by exact free.raw) _
  | colon expect kind => exact .of_idle (by exact free.raw) _
  | comma separator kind follows => exact .of_idle (by exact free.raw) _
  | close expect closed =>
      obtain ⟨top, below, -, -, rfl⟩ := close_cases closed
      exact .of_idle ((complete_raw _ _).trans (by exact free.raw)) _
  | value expect begun =>
      refine begin_captures free (fun name captured => ?_) (begin_cases begun) tokens
      exact ⟨frame, rest, stack, (Frame.treatment_eq_capture.mp captured).2⟩

theorem push_captures (captures : walker.Captures tokens) (inner : token.kind ≠ .endOfInput)
    (pushed : walker.push plan window token = (next, none)) :
    next.Captures (tokens ++ [token]) := by
  cases push_cases inner pushed with
  | skip skips opened => exact .of_idle (by exact captures.raw_none skips) _
  | skipped skips closed =>
      exact .of_idle ((complete_raw _ _).trans (by exact captures.raw_none skips)) _
  | @capture key stretch passes under opened =>
      obtain ⟨-, leaf, front, inside, rfl, unclosed, depth⟩ := captures key stretch under
      have positive : 0 < stretch.depth := by
        have positive := unclosed.opened
        omega
      have moved := Stretch.push_depth positive token
      have balance : Token.balance (inside ++ [token]) = (stretch.push token.kind).depth := by
        rw [Token.balance_append, depth, moved]
      rintro name run ⟨⟩
      refine ⟨passes, leaf, front, inside ++ [token], List.append_assoc _ _ _, ?_, balance⟩
      rw [Stretch.push_start]
      refine unclosed.snoc ?_
      rw [balance]
      exact Int.natCast_pos.mpr (Nat.pos_of_ne_zero opened)
  | @captured key stretch passes under closed =>
      have delivers := deliverRaw_delivers { walker with raw := none } window key
        ⟨stretch.start, token.span.stop⟩
      exact .of_idle ((complete_raw _ _).trans delivers.raw) _
  | root free stack first begun =>
      refine begin_captures ⟨?_, ?_⟩ (fun name captured => by cases captured) (begin_cases begun)
        tokens
      · exact free.skip
      · exact free.raw
  | frame free stack step => exact step.captures free stack tokens

/-! ### Many tokens -/

theorem walk_captures {more : List Token} (captures : walker.Captures tokens)
    (inner : ∀ token ∈ more, token.kind ≠ .endOfInput)
    (walked : walker.walk plan window more = (next, none)) : next.Captures (tokens ++ more) :=
  walk_keeps (P := Captures) push_captures tokens captures inner walked

end Walker
end JsonProjection
