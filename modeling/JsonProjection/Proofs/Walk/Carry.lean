import JsonProjection.Proofs.Token.Spans
import JsonProjection.Proofs.Walk.Run

/-!
The bytes of raw leaves do not depend on how the source is cut.

A walk is compared with the walk that has the whole source for its window. The two differ in the
carried bytes only, and `push_whole` says why: as long as the carried bytes are those of the raw
leaf under way that lie in front of the window, every raw leaf is delivered with the bytes of its
span.
-/

namespace JsonProjection

open Walk

/-! ### Windows -/

/-- A window that shows some bytes of a source at their place. -/
structure Walk.Window.Shows (window : Window) (source chunk : Bytes) : Prop where
  bytes : window.bytes = chunk.toByteArray
  place : ∃ before after, source = before ++ (chunk ++ after) ∧ before.length = window.base

def Walk.Window.whole (source : Bytes) : Window :=
  ⟨source.toByteArray, 0⟩

/-- The bytes of a source in front of an offset, from the start of a raw leaf on. -/
def carried (source : Bytes) (base : Nat) : Option Nat → Bytes
  | none => []
  | some start => (source.take base).drop start

namespace Walk.Window

theorem extract_toList (bytes : Bytes) (start stop : Nat) :
    (bytes.toByteArray.extract start stop).data.toList =
      (bytes.drop start).take (stop - start) := by
  simp

theorem whole_slice (source : Bytes) (span : Span) :
    (whole source).slice span = span.of source := by
  simp only [slice, whole, extract_toList, Nat.sub_zero, Span.of, Span.length]

variable {window : Window} {source chunk : Bytes}

theorem slice_eq (shows : window.Shows source chunk) {span : Span}
    (start : window.base ≤ span.start) (stop : span.stop ≤ window.base + chunk.length) :
    window.slice span = span.of source := by
  obtain ⟨before, after, split, place⟩ := shows.place
  rw [slice, shows.bytes, extract_toList, Span.of, Span.length]
  rcases Nat.lt_or_ge span.stop span.start with reversed | proper
  · have noneHere : span.stop - window.base - (span.start - window.base) = 0 := by omega
    have noneThere : span.stop - span.start = 0 := by omega
    rw [noneHere, noneThere, List.take_zero, List.take_zero]
  · have front : source.drop span.start = chunk.drop (span.start - window.base) ++ after := by
      rw [split, List.drop_append, List.drop_eq_nil_of_le (by omega), List.nil_append, place,
        List.drop_append_of_le_length (by omega)]
    have length : span.stop - window.base - (span.start - window.base) =
        span.stop - span.start := by omega
    have inside : span.stop - span.start ≤ (chunk.drop (span.start - window.base)).length := by
      rw [List.length_drop]
      omega
    rw [front, length, List.take_append_of_le_length inside]

theorem carried_append_upTo (shows : window.Shows source chunk) {span : Span}
    (start : span.start < window.base) (base : window.base ≤ span.stop)
    (stop : span.stop ≤ window.base + chunk.length) :
    carried source window.base (some span.start) ++ window.upTo span.stop = span.of source := by
  obtain ⟨before, after, split, place⟩ := shows.place
  have front : source.drop span.start = before.drop span.start ++ (chunk ++ after) := by
    rw [split, List.drop_append_of_le_length (by omega)]
  have length : (before.drop span.start).length = window.base - span.start := by
    rw [List.length_drop, place]
  have taken : source.take window.base = before := by
    rw [split, List.take_left' place]
  have rest : span.stop - span.start - (window.base - span.start) =
      span.stop - window.base := by omega
  have own : (before.drop span.start).take (span.stop - span.start) = before.drop span.start :=
    List.take_of_length_le (by omega)
  rw [upTo, shows.bytes, extract_toList, List.drop_zero, Nat.sub_zero, carried, taken, Span.of,
    Span.length, front, List.take_append, own, length, rest,
    List.take_append_of_le_length (by omega)]

theorem carried_append_suffix (shows : window.Shows source chunk) (start : Nat) :
    carried source window.base (some start) ++ window.suffix start =
      carried source (window.base + chunk.length) (some start) := by
  obtain ⟨before, after, split, place⟩ := shows.place
  have size : window.bytes.size = chunk.length := by
    rw [shows.bytes, List.size_toByteArray]
  have front : source.take window.base = before := by
    rw [split, List.take_left' place]
  have more : source.take (window.base + chunk.length) = before ++ chunk := by
    rw [split, ← List.append_assoc, List.take_left' (by rw [List.length_append, place])]
  have all : (chunk.drop (start - window.base)).take
      (chunk.length - (start - window.base)) = chunk.drop (start - window.base) := by
    exact List.take_of_length_le (Nat.le_of_eq List.length_drop)
  rw [suffix, size, shows.bytes, extract_toList, carried, carried, front, more, all,
    List.drop_append, place]

end Walk.Window

theorem carried_of_le {source : Bytes} {base start : Nat} (le : base ≤ start) :
    carried source base (some start) = [] := by
  apply List.drop_eq_nil_of_le
  rw [List.length_take]
  omega

namespace Walker

/-! ### Steps and the carried bytes -/

def withCarry (walker : Walker) (carry : Bytes) : Walker :=
  { walker with carry }

@[simp]
theorem withCarry_stack (walker : Walker) (carry : Bytes) :
    (walker.withCarry carry).stack = walker.stack :=
  rfl

@[simp]
theorem withCarry_skip (walker : Walker) (carry : Bytes) :
    (walker.withCarry carry).skip = walker.skip :=
  rfl

@[simp]
theorem withCarry_raw (walker : Walker) (carry : Bytes) :
    (walker.withCarry carry).raw = walker.raw :=
  rfl

@[simp]
theorem withCarry_self (walker : Walker) : walker.withCarry walker.carry = walker :=
  rfl

theorem complete_withCarry (walker : Walker) (carry : Bytes) (value? : Option Json.Value) :
    (walker.withCarry carry).complete value? = (walker.complete value?).withCarry carry := by
  unfold complete
  cases stack : walker.stack with
  | nil =>
      simp only [withCarry_stack, stack]
      cases value? <;> rfl
  | cons frame rest =>
      simp only [withCarry_stack, stack]
      split <;> rfl

theorem close_withCarry (walker : Walker) (carry : Bytes) (token : Token) :
    (walker.withCarry carry).close token =
      ((walker.close token).1.withCarry carry, (walker.close token).2) := by
  unfold close
  cases stack : walker.stack with
  | nil =>
      simp only [withCarry_stack, stack]
      rfl
  | cons frame rest =>
      simp only [withCarry_stack, stack]
      split
      · simp only [Prod.mk.injEq, and_true]
        exact complete_withCarry { walker with stack := rest } carry frame.result?
      · rfl

theorem begin_withCarry (walker : Walker) (carry : Bytes) (mode : EmitMode)
    (window other : Window) {treatment : Treatment} (token : Token)
    (noLeaf : ∀ name, treatment = .capture name → token.kind.scalar? = none) :
    (walker.withCarry carry).begin mode window treatment token =
      ((walker.begin mode other treatment token).1.withCarry carry,
        (walker.begin mode other treatment token).2) := by
  unfold begin
  cases opened : token.kind.opens? with
  | some container => cases treatment <;> rfl
  | none =>
      cases value : token.kind.scalar? with
      | none => rfl
      | some built =>
          cases treatment with
          | capture name =>
              rw [noLeaf name rfl] at value
              cases value
          | skip =>
              simp only [Prod.mk.injEq, and_true]
              exact complete_withCarry
                { walker with skipped := walker.skipped + token.span.length } carry none
          | keep =>
              simp only [Prod.mk.injEq, and_true]
              exact complete_withCarry walker carry (some built)
          | project group =>
              cases mode with
              | materialize =>
                  simp only [Prod.mk.injEq, and_true]
                  exact complete_withCarry walker carry (some built)
              | raw =>
                  simp only [Prod.mk.injEq, and_true]
                  exact complete_withCarry walker carry none

/-! ### Raw leaves under way -/

theorem rawStart?_none (walker : Walker) (mode : EmitMode) :
    walker.rawStart? mode none = walker.raw.map (·.stretch.start) := by
  unfold rawStart?
  cases walker.raw with
  | some capture => rfl
  | none => exact ite_self none

theorem awaitsRawLeaf_of_skip {walker : Walker} {stretch : Stretch}
    (skips : walker.skip = some stretch) (mode : EmitMode) :
    walker.awaitsRawLeaf mode = false := by
  unfold awaitsRawLeaf
  rw [skips]
  rfl

theorem rawStart?_of_not_awaits {walker : Walker} {mode : EmitMode}
    (awaits : walker.awaitsRawLeaf mode = false) (pendingStart? : Option Nat) :
    walker.rawStart? mode pendingStart? = walker.raw.map (·.stretch.start) := by
  unfold rawStart?
  rw [awaits]
  cases walker.raw <;> rfl

theorem expect_of_capture {frame : Walk.Frame} {mode : EmitMode} {name : String}
    (leaf : frame.treatment mode = .capture name) : ∃ key, frame.expect = .value key := by
  rcases frame with ⟨container, group, expect, building⟩
  cases group with
  | none => cases leaf
  | some group =>
      cases container with
      | array => cases leaf
      | object =>
          cases expect with
          | value key => exact ⟨key, rfl⟩
          | key orClose => cases leaf
          | colon key => cases leaf
          | item orClose => cases leaf
          | separator => cases leaf

theorem pushFrame_withCarry (walker : Walker) (carry : Bytes) (mode : EmitMode)
    (window other : Window) (frame : Walk.Frame) (rest : List Walk.Frame) (token : Token)
    (noLeaf : ∀ name, frame.treatment mode = .capture name → token.kind.scalar? = none) :
    (walker.withCarry carry).pushFrame mode window frame rest token =
      ((walker.pushFrame mode other frame rest token).1.withCarry carry,
        (walker.pushFrame mode other frame rest token).2) := by
  have begins := begin_withCarry walker carry mode window other token noLeaf
  have closes := close_withCarry walker carry token
  unfold pushFrame
  cases frame.expect with
  | value key => exact begins
  | colon key => cases token.kind <;> rfl
  | key orClose => cases token.kind <;> cases orClose <;> first | rfl | exact closes
  | separator =>
      cases frame.container <;> cases token.kind <;> first | rfl | exact closes
  | item orClose =>
      simp only
      split
      · exact closes
      · exact begins

theorem begin_raw {walker next : Walker} {mode : EmitMode} {window : Window}
    {treatment : Treatment} {token : Token}
    (begun : walker.begin mode window treatment token = (next, none)) :
    next.raw = walker.raw ∨
      ∃ name, treatment = .capture name ∧ next.raw = some ⟨name, ⟨1, token.span.start⟩⟩ := by
  cases begin_cases begun with
  | scalar scalar delivers =>
      rw [complete_raw]
      exact Or.inl delivers.raw
  | skip opens skipped => exact Or.inl rfl
  | capture opens captured => exact Or.inr ⟨_, captured, rfl⟩
  | container opens looked => exact Or.inl rfl

theorem deliverRaw_eq {window : Window} {source chunk : Bytes}
    (shows : window.Shows source chunk) (walker : Walker) (key : String) (span : Span)
    (kept : walker.carry.reverse = carried source window.base (some span.start))
    (base : window.base ≤ span.stop) (stop : span.stop ≤ window.base + chunk.length) :
    walker.deliverRaw window key span =
      (walker.withCarry []).deliver (.raw ⟨key, span, span.of source⟩) := by
  unfold deliverRaw
  by_cases inside : window.base ≤ span.start
  · have noCarry : walker.carry = [] := by
      rw [carried_of_le inside] at kept
      exact List.reverse_eq_nil_iff.mp kept
    rw [if_pos inside, Window.slice_eq shows inside stop, ← noCarry]
    rfl
  · rw [if_neg inside]
    simp only [kept, Window.carried_append_upTo shows (Nat.lt_of_not_le inside) base stop]
    rfl

theorem deliverRaw_whole (walker : Walker) (source : Bytes) (key : String) (span : Span) :
    walker.deliverRaw (Window.whole source) key span =
      walker.deliver (.raw ⟨key, span, span.of source⟩) := by
  have front : (Window.whole source).base ≤ span.start := Nat.zero_le span.start
  rw [deliverRaw, if_pos front, Window.whole_slice]

private theorem carried_of_raw {walker next : Walker} {source : Bytes} {base start : Nat}
    {mode : EmitMode} (awaits : walker.awaitsRawLeaf mode = false)
    (kept : walker.carry.reverse = carried source base (walker.rawStart? mode (some start)))
    (carry : next.carry = walker.carry) (raw : next.raw = walker.raw) :
    next.carry.reverse = carried source base (next.rawStart? mode none) := by
  rw [carry, kept, rawStart?_of_not_awaits awaits, rawStart?_none, raw]

private theorem beginRoot_whole {plan : Plan} {window : Window} {source : Bytes}
    {walker next : Walker} {token : Token} {error? : Option StructuralError}
    (stack : walker.stack = [])
    (kept : walker.carry.reverse =
      carried source window.base (walker.rawStart? plan.mode (some token.span.start)))
    (pushed : walker.beginRoot plan window token = (next, error?)) :
    (walker.withCarry []).beginRoot plan (Window.whole source) token =
        (next.withCarry [], error?) ∧
      (error? = none → next.carry.reverse =
        carried source window.base (next.rawStart? plan.mode none)) := by
  unfold beginRoot at pushed ⊢
  by_cases second : (walker.single && 0 < walker.roots) = true
  · have secondToo : ((walker.withCarry []).single && 0 < (walker.withCarry []).roots) = true :=
      second
    rw [if_pos second] at pushed
    rw [if_pos secondToo]
    cases pushed
    exact ⟨rfl, fun impossible => by cases impossible⟩
  · have secondToo : ¬((walker.withCarry []).single && 0 < (walker.withCarry []).roots) = true :=
      second
    rw [if_neg second] at pushed
    rw [if_neg secondToo]
    generalize (if token.kind = .openArray then RootShape.array else .single) = shape at pushed ⊢
    have noLeaf : ∀ name, Treatment.project plan.group = .capture name →
        token.kind.scalar? = none := fun name impossible => by cases impossible
    have same := begin_withCarry { walker with shape := some shape } [] plan.mode
      (Window.whole source) window token noLeaf
    have own := begin_withCarry { walker with shape := some shape } walker.carry plan.mode
      window window token noLeaf
    refine ⟨?_, fun none => ?_⟩
    · rw [pushed] at same
      exact same
    · subst none
      have carry : next.carry = walker.carry := by
        have kept := congrArg (fun result => result.1.carry) own
        simp only [pushed] at kept
        exact (congrArg (fun result => result.1.carry) pushed).symm.trans kept
      have awaits : walker.awaitsRawLeaf plan.mode = false := by
        simp only [awaitsRawLeaf, stack, Bool.and_false]
      refine carried_of_raw awaits kept carry ?_
      rcases begin_raw pushed with same | ⟨name, impossible, _⟩
      · exact same
      · cases impossible

private theorem beginLeaf_whole {mode : EmitMode} {window : Window} {source chunk : Bytes}
    (shows : window.Shows source chunk) {walker next : Walker} {token : Token} {name : String}
    {error? : Option StructuralError} (idle : walker.raw = none)
    (base : window.base ≤ token.span.stop)
    (stop : token.span.stop ≤ window.base + chunk.length)
    (kept : walker.carry.reverse = carried source window.base (some token.span.start))
    (begun : walker.begin mode window (.capture name) token = (next, error?)) :
    (walker.withCarry []).begin mode (Window.whole source) (.capture name) token =
        (next.withCarry [], error?) ∧
      (error? = none → next.carry.reverse =
        carried source window.base (next.rawStart? mode none)) := by
  unfold begin at begun ⊢
  cases opened : token.kind.opens? with
  | some container =>
      rw [opened] at begun
      cases begun
      refine ⟨rfl, fun _ => ?_⟩
      rw [rawStart?_none]
      exact kept
  | none =>
      rw [opened] at begun
      cases value : token.kind.scalar? with
      | none =>
          rw [value] at begun
          cases begun
          exact ⟨rfl, fun impossible => by cases impossible⟩
      | some built =>
          rw [value] at begun
          simp only [deliverRaw_eq shows walker name token.span kept base stop] at begun
          cases begun
          refine ⟨?_, fun _ => ?_⟩
          · simp only [deliverRaw_whole, Prod.mk.injEq, and_true]
            rw [← complete_withCarry]
            rfl
          · have still :
                ((walker.withCarry []).deliver
                  (.raw ⟨name, token.span, token.span.of source⟩)).raw = none := idle
            rw [rawStart?_none, complete_raw, complete_carry, still]
            rfl

private theorem pushFrame_raw {mode : EmitMode} {window : Window} {walker next : Walker}
    {token : Token} {frame : Walk.Frame} {rest : List Walk.Frame}
    (noLeaf : ∀ name, frame.treatment mode ≠ .capture name)
    (pushed : walker.pushFrame mode window frame rest token = (next, none)) :
    next.raw = walker.raw := by
  cases pushFrame_cases pushed with
  | key expect kind => rfl
  | colon expect kind => rfl
  | comma separator kind follows => rfl
  | close expect closed =>
      obtain ⟨frame, rest, _, _, same⟩ := close_cases closed
      rw [same, complete_raw]
  | value expect begun =>
      rcases begin_raw begun with same | ⟨name, leaf, _⟩
      · exact same
      · exact absurd leaf (noLeaf name)

private theorem pushFrame_whole {plan : Plan} {window : Window} {source chunk : Bytes}
    (shows : window.Shows source chunk) {walker next : Walker} {token : Token}
    {frame : Walk.Frame} {rest : List Walk.Frame} {error? : Option StructuralError}
    (free : walker.Free) (stack : walker.stack = frame :: rest)
    (base : window.base ≤ token.span.stop)
    (stop : token.span.stop ≤ window.base + chunk.length)
    (kept : walker.carry.reverse =
      carried source window.base (walker.rawStart? plan.mode (some token.span.start)))
    (pushed : walker.pushFrame plan.mode window frame rest token = (next, error?)) :
    (walker.withCarry []).pushFrame plan.mode (Window.whole source) frame rest token =
        (next.withCarry [], error?) ∧
      (error? = none → next.carry.reverse =
        carried source window.base (next.rawStart? plan.mode none)) := by
  by_cases leaf : ∃ name, frame.treatment plan.mode = .capture name
  · obtain ⟨name, capture⟩ := leaf
    obtain ⟨key, expect⟩ := expect_of_capture capture
    have awaits : walker.awaitsRawLeaf plan.mode = true := by
      simp only [awaitsRawLeaf, free.skip, free.raw, stack, expect, capture, Option.isNone_none,
        Bool.and_self]
    have start : walker.rawStart? plan.mode (some token.span.start) = some token.span.start := by
      simp only [rawStart?, free.raw, awaits, if_true]
    rw [start] at kept
    unfold pushFrame at pushed ⊢
    rw [expect] at pushed ⊢
    simp only [capture] at pushed ⊢
    exact beginLeaf_whole shows free.raw base stop kept pushed
  · have noLeaf : ∀ name, frame.treatment plan.mode ≠ .capture name :=
      fun name capture => leaf ⟨name, capture⟩
    have never : ∀ name, frame.treatment plan.mode = .capture name →
        token.kind.scalar? = none := fun name capture => absurd capture (noLeaf name)
    have same := pushFrame_withCarry walker [] plan.mode (Window.whole source) window frame rest
      token never
    have own := pushFrame_withCarry walker walker.carry plan.mode window window frame rest
      token never
    rw [pushed] at same
    refine ⟨same, fun none => ?_⟩
    subst none
    have carry : next.carry = walker.carry := by
      rw [withCarry_self, pushed] at own
      exact congrArg (fun result => result.1.carry) own
    have awaits : walker.awaitsRawLeaf plan.mode = false := by
      simp only [awaitsRawLeaf, stack]
      split
      · rename_i name _ capture
        exact absurd capture (noLeaf name)
      · exact Bool.and_false _
    exact carried_of_raw awaits kept carry (pushFrame_raw noLeaf pushed)

/-- A step under a window and the step under the whole source agree but for the carried bytes, as
long as these are the bytes of the raw leaf under way in front of the window. -/
theorem push_whole {plan : Plan} {window : Window} {source chunk : Bytes}
    (shows : window.Shows source chunk) {walker next : Walker} {token : Token}
    {error? : Option StructuralError} (inner : token.kind ≠ .endOfInput)
    (base : window.base ≤ token.span.stop)
    (stop : token.span.stop ≤ window.base + chunk.length)
    (kept : walker.carry.reverse =
      carried source window.base (walker.rawStart? plan.mode (some token.span.start)))
    (pushed : walker.push plan window token = (next, error?)) :
    (walker.withCarry []).push plan (Window.whole source) token = (next.withCarry [], error?) ∧
      (error? = none → next.carry.reverse =
        carried source window.base (next.rawStart? plan.mode none)) := by
  unfold push at pushed ⊢
  rw [if_neg inner] at pushed ⊢
  rw [withCarry_skip, withCarry_raw, withCarry_stack]
  cases skips : walker.skip with
  | some stretch =>
      have under : walker.carry.reverse =
          carried source window.base (walker.raw.map (·.stretch.start)) := by
        rw [kept, rawStart?_of_not_awaits (awaitsRawLeaf_of_skip skips plan.mode)]
      rw [skips] at pushed
      simp only at pushed ⊢
      by_cases closed : (stretch.push token.kind).depth = 0
      · rw [if_pos closed] at pushed ⊢
        cases pushed
        refine ⟨?_, fun _ => ?_⟩
        · rw [Prod.mk.injEq, ← complete_withCarry]
          exact ⟨rfl, rfl⟩
        · rw [rawStart?_none, complete_raw, complete_carry]
          exact under
      · rw [if_neg closed] at pushed ⊢
        cases pushed
        refine ⟨rfl, fun _ => ?_⟩
        rw [rawStart?_none]
        exact under
  | none =>
      rw [skips] at pushed
      cases captures : walker.raw with
      | some capture =>
          obtain ⟨key, stretch⟩ := capture
          have under : walker.carry.reverse = carried source window.base (some stretch.start) := by
            simpa only [rawStart?, captures] using kept
          rw [captures] at pushed
          simp only [Stretch.push_start] at pushed ⊢
          by_cases closed : (stretch.push token.kind).depth = 0
          · rw [if_pos closed] at pushed ⊢
            have delivered := deliverRaw_eq shows { walker with skip := none, raw := none } key
              ⟨stretch.start, token.span.stop⟩ under base stop
            rw [delivered] at pushed
            cases pushed
            refine ⟨?_, fun _ => ?_⟩
            · rw [deliverRaw_whole, Prod.mk.injEq, ← complete_withCarry]
              exact ⟨rfl, rfl⟩
            · rw [rawStart?_none, complete_raw, complete_carry]
              rfl
          · rw [if_neg closed] at pushed ⊢
            cases pushed
            refine ⟨rfl, fun _ => ?_⟩
            rw [rawStart?_none]
            simpa only [Option.map_some, Stretch.push_start] using under
      | none =>
          rw [captures] at pushed
          cases stack : walker.stack with
          | nil =>
              rw [stack] at pushed
              exact beginRoot_whole stack kept pushed
          | cons frame rest =>
              rw [stack] at pushed
              exact pushFrame_whole shows ⟨skips, captures⟩ stack base stop kept pushed

theorem carried_rawStart? {source : Bytes} {base start : Nat} (walker : Walker) (mode : EmitMode)
    (le : base ≤ start) :
    carried source base (walker.rawStart? mode (some start)) =
      carried source base (walker.rawStart? mode none) := by
  unfold rawStart?
  cases walker.raw with
  | some capture => rfl
  | none =>
      simp only
      split
      · exact carried_of_le le
      · rfl

/-- A walk under a window and the walk under the whole source agree but for the carried bytes. -/
theorem walk_whole {plan : Plan} {window : Window} {source chunk : Bytes}
    (shows : window.Shows source chunk) {walker : Walker} {token : Token} {rest : List Token}
    {first last : Nat} (chain : Token.Chain first (token :: rest) last)
    (base : window.base ≤ token.span.stop) (within : last ≤ window.base + chunk.length)
    (inner : ∀ other ∈ token :: rest, other.kind ≠ .endOfInput)
    (kept : walker.carry.reverse =
      carried source window.base (walker.rawStart? plan.mode (some token.span.start))) :
    (walker.withCarry []).walk plan (Window.whole source) (token :: rest) =
        ((walker.walk plan window (token :: rest)).1.withCarry [],
          (walker.walk plan window (token :: rest)).2) ∧
      ((walker.walk plan window (token :: rest)).2 = none →
        (walker.walk plan window (token :: rest)).1.carry.reverse =
          carried source window.base
            ((walker.walk plan window (token :: rest)).1.rawStart? plan.mode none)) := by
  induction rest generalizing walker token first with
  | nil =>
      have stop := (chain.mem (List.mem_singleton_self token)).2.2
      rcases pushed : walker.push plan window token with ⟨next, _ | error⟩
      · obtain ⟨same, carry⟩ := push_whole shows (inner token (List.mem_singleton_self token)) base
          (Nat.le_trans stop within) kept pushed
        rw [walk_cons_ok same, walk_cons_ok pushed]
        exact ⟨rfl, fun _ => carry rfl⟩
      · obtain ⟨same, _⟩ := push_whole shows (inner token (List.mem_singleton_self token)) base
          (Nat.le_trans stop within) kept pushed
        rw [walk_cons_error same, walk_cons_error pushed]
        exact ⟨rfl, fun impossible => by cases impossible⟩
  | cons following others ih =>
      have stop := (chain.mem (List.mem_cons_self)).2.2
      rcases pushed : walker.push plan window token with ⟨next, _ | error⟩
      · obtain ⟨same, carry⟩ := push_whole shows (inner token List.mem_cons_self) base
          (Nat.le_trans stop within) kept pushed
        rw [walk_cons_ok same, walk_cons_ok pushed]
        have behind := chain.2.2
        have fresh : window.base ≤ following.span.start := Nat.le_trans base behind.1
        refine ih behind (Nat.le_trans fresh (Nat.le_of_lt behind.2.1))
          (fun other member => inner other (List.mem_cons_of_mem token member)) ?_
        rw [carry rfl, carried_rawStart? next plan.mode fresh]
      · obtain ⟨same, _⟩ := push_whole shows (inner token List.mem_cons_self) base
          (Nat.le_trans stop within) kept pushed
        rw [walk_cons_error same, walk_cons_error pushed]
        exact ⟨rfl, fun impossible => by cases impossible⟩

end Walker
end JsonProjection
