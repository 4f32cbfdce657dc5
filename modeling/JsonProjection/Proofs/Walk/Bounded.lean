import JsonProjection.Proofs.Selection.Distinct
import JsonProjection.Proofs.Walk.Checked
import JsonProjection.Proofs.Walk.Run

/-!
No step of a walk leaves the bounds.

`Bounded` is the invariant under which a checked step never gives up: it is then the unchecked one,
and leaves a bounded walker behind, also where the token is refused.
-/

namespace JsonProjection

open Walk

theorem minus?_eq {left right : Nat} (le : right ≤ left) :
    minus? left right = some (left - right) :=
  if_pos le

/-! ### Where the checks pass -/

namespace Walk

variable {window : Window}

theorem Window.range?_eq {start stop : Nat} (ordered : start ≤ stop)
    (inside : stop ≤ window.bytes.size) :
    window.range? start stop = some (window.bytes.extract start stop).data.toList :=
  if_pos ⟨ordered, inside⟩

theorem Window.slice?_eq {span : Span} (start : window.base ≤ span.start)
    (ordered : span.start ≤ span.stop) (stop : span.stop ≤ window.base + window.bytes.size) :
    window.slice? span = some (window.slice span) := by
  unfold Window.slice?
  rw [minus?_eq start, minus?_eq (Nat.le_trans start ordered)]
  apply Window.range?_eq
  · omega
  · omega

theorem Window.upTo?_eq {stop : Nat} (start : window.base ≤ stop)
    (inside : stop ≤ window.base + window.bytes.size) :
    window.upTo? stop = some (window.upTo stop) := by
  unfold Window.upTo?
  rw [minus?_eq start]
  apply Window.range?_eq
  · exact Nat.zero_le _
  · omega

theorem Window.suffix?_eq {start : Nat} (inside : start ≤ window.base + window.bytes.size) :
    window.suffix? start = some (window.suffix start) := by
  apply Window.range?_eq
  · omega
  · exact Nat.le_refl _

theorem Stretch.push?_eq {stretch : Stretch} (opened : 0 < stretch.depth) (kind : Token.Kind) :
    stretch.push? kind = some (stretch.push kind) := by
  unfold Stretch.push? Stretch.push
  split
  · rfl
  · split
    · rw [minus?_eq opened]
      rfl
    · rfl

/-- The field that an expectation points to, by its position in the group. -/
def Expect.field? : Expect → Option Nat
  | .colon (.field index) => some index
  | .value (.field index) => some index
  | _ => none

/-- The field of a frame lies in its group, and its slots are as many as the fields of the group. -/
structure Frame.Bounded (frame : Frame) : Prop where
  field : ∀ index, frame.expect.field? = some index →
    ∃ group, frame.group = some group ∧ index < group.size
  slots : ∀ values, frame.building = .slots values →
    ∃ group, frame.group = some group ∧ values.length = group.size

variable {frame : Frame}

theorem Frame.Bounded.accept?_eq (bounded : frame.Bounded) (value? : Option Json.Value) :
    frame.accept? value? = some (frame.accept value?) := by
  unfold Frame.accept?
  split
  · rename_i values index value building expect
    obtain ⟨group, own, length⟩ := bounded.slots values building
    obtain ⟨other, same, less⟩ := bounded.field index (by rw [expect]; rfl)
    have groups : group = other := Option.some.inj (own.symm.trans same)
    rw [if_pos]
    rw [length, groups]
    exact less
  · rfl

theorem Frame.Bounded.accept (bounded : frame.Bounded) (value? : Option Json.Value) :
    (frame.accept value?).Bounded := by
  constructor
  case field =>
    intro index impossible
    cases impossible
  case slots =>
    intro values building
    unfold Frame.accept at building
    simp only at building
    split at building
    · rename_i before index value own expect
      cases building
      obtain ⟨group, same, length⟩ := bounded.slots before own
      exact ⟨group, same, by rw [List.length_set, length]⟩
    · cases building
    · cases building
    · exact bounded.slots values building

theorem Frame.Bounded.treatment?_eq (bounded : frame.Bounded) (mode : EmitMode) :
    frame.treatment? mode = some (frame.treatment mode) := by
  unfold Frame.treatment?
  split
  · rename_i group index own container expect
    obtain ⟨other, same, less⟩ := bounded.field index (by rw [expect]; rfl)
    have groups : group = other := Option.some.inj (own.symm.trans same)
    rw [if_pos]
    rw [groups]
    exact less
  · rfl

theorem Frame.key?_eq (frame : Frame) (name : String) :
    frame.key? name = some (frame.key name) := by
  unfold Frame.key? Frame.key
  cases frame.group with
  | none => rfl
  | some group =>
      simp only [Group.lookup]
      cases found : group.fields.findIdx? (·.1 == name) with
      | none => rfl
      | some index =>
          obtain ⟨inside, _⟩ := List.findIdx?_eq_some_iff_getElem.mp found
          simp only [Group.size, inside, if_true, List.getElem?_eq_getElem inside,
            Option.map_some]

theorem Frame.Bounded.expecting (bounded : frame.Bounded) {expect : Expect}
    (field : expect.field? = none ∨ expect.field? = frame.expect.field?) :
    Frame.Bounded { frame with expect } := by
  constructor
  case field =>
    intro index points
    rcases field with none | same
    · exact absurd (none.symm.trans points) (by simp)
    · exact bounded.field index (same.symm.trans points)
  case slots => exact bounded.slots

theorem Frame.Bounded.colon (bounded : frame.Bounded) (name : String) :
    Frame.Bounded { frame with expect := .colon (frame.key name) } := by
  constructor
  case field =>
    intro index points
    cases own : frame.group with
    | none =>
        simp only [Frame.key, own] at points
        cases points
    | some group =>
        simp only [Frame.key, own] at points
        cases found : group.lookup name with
        | none =>
            rw [found] at points
            cases points
        | some entry =>
            rw [found] at points
            cases points
            obtain ⟨inside, _⟩ := List.getElem?_eq_some_iff.mp (Group.lookup_fields found)
            exact ⟨group, rfl, inside⟩
  case slots => exact bounded.slots

end Walk

/-- A token that ends inside a window. It may have started in front of it. -/
structure Token.Inside (token : Token) (window : Window) : Prop where
  ordered : token.span.start ≤ token.span.stop
  base : window.base ≤ token.span.stop
  stop : token.span.stop ≤ window.base + window.bytes.size

structure Walk.Stretch.Bounded (stretch : Stretch) (limit : Nat) : Prop where
  opened : 0 < stretch.depth
  before : stretch.start ≤ limit

theorem Walk.Stretch.Bounded.later {stretch : Stretch} {limit later : Nat}
    (bounded : stretch.Bounded limit) (le : limit ≤ later) : stretch.Bounded later :=
  ⟨bounded.opened, Nat.le_trans bounded.before le⟩

theorem Walk.Stretch.Bounded.push {stretch : Stretch} {limit : Nat} {kind : Token.Kind}
    (bounded : stretch.Bounded limit) (opened : (stretch.push kind).depth ≠ 0) :
    (stretch.push kind).Bounded limit :=
  ⟨Nat.pos_of_ne_zero opened, by rw [Stretch.push_start]; exact bounded.before⟩

namespace Walker

structure Bounded (walker : Walker) (limit : Nat) : Prop where
  frames : ∀ frame ∈ walker.stack, frame.Bounded
  skip : ∀ stretch, walker.skip = some stretch → stretch.Bounded limit
  raw : ∀ capture, walker.raw = some capture → capture.stretch.Bounded limit

variable {walker next : Walker} {window : Window} {token : Token} {limit : Nat}

theorem Bounded.later (bounded : walker.Bounded limit) {later : Nat} (le : limit ≤ later) :
    walker.Bounded later :=
  ⟨bounded.frames, fun stretch skips => (bounded.skip stretch skips).later le,
    fun capture captures => (bounded.raw capture captures).later le⟩

theorem Bounded.of_delivers (bounded : walker.Bounded limit) (delivers : Delivers walker next) :
    next.Bounded limit := by
  constructor
  case frames =>
    rw [delivers.stack]
    exact bounded.frames
  case skip =>
    rw [delivers.skip]
    exact bounded.skip
  case raw =>
    rw [delivers.raw]
    exact bounded.raw

section Frames

variable (frames : ∀ frame ∈ walker.stack, frame.Bounded)

include frames

theorem complete?_eq (value? : Option Json.Value) :
    walker.complete? value? = some (walker.complete value?) := by
  unfold complete?
  cases stack : walker.stack with
  | nil => rfl
  | cons frame rest =>
      have own : frame.Bounded := by
        apply frames
        rw [stack]
        exact List.mem_cons_self
      simp only [own.accept?_eq, Option.map_some]

end Frames

theorem Bounded.complete (bounded : walker.Bounded limit) (value? : Option Json.Value) :
    (walker.complete value?).Bounded limit := by
  constructor
  case frames =>
    rw [complete_stack]
    have frames := bounded.frames
    cases stack : walker.stack with
    | nil => exact fun _ member => absurd member List.not_mem_nil
    | cons frame rest =>
        rw [stack] at frames
        intro other member
        rcases List.mem_cons.mp member with rfl | below
        · exact (frames frame List.mem_cons_self).accept value?
        · exact frames other (List.mem_cons_of_mem frame below)
  case skip =>
    rw [complete_skip]
    exact bounded.skip
  case raw =>
    rw [complete_raw]
    exact bounded.raw

theorem deliverRaw?_eq (walker : Walker) (key : String) {span : Span}
    (ordered : span.start ≤ span.stop) (base : window.base ≤ span.stop)
    (stop : span.stop ≤ window.base + window.bytes.size) :
    walker.deliverRaw? window key span = some (walker.deliverRaw window key span) := by
  unfold deliverRaw? deliverRaw
  split
  · rename_i front
    rw [Window.slice?_eq front ordered stop]
    rfl
  · rw [Window.upTo?_eq base stop]
    rfl

theorem begin?_eq (frames : ∀ frame ∈ walker.stack, frame.Bounded) (mode : EmitMode)
    (treatment : Treatment) (inside : token.Inside window) :
    walker.begin? mode window treatment token =
      some (walker.begin mode window treatment token) := by
  unfold begin?
  split
  · rename_i value opens scalar
    have skipped : ∀ frame ∈ ({ walker with
        skipped := walker.skipped + (token.span.stop - token.span.start) } : Walker).stack,
        frame.Bounded := frames
    rw [minus?_eq inside.ordered]
    simp only [Option.bind_eq_bind, Option.bind_some, complete?_eq skipped]
    unfold begin
    rw [opens, scalar]
    rfl
  · rename_i value key opens scalar
    have delivered := deliverRaw_delivers walker window key token.span
    have below : ∀ frame ∈ (walker.deliverRaw window key token.span).stack, frame.Bounded := by
      rw [delivered.stack]
      exact frames
    rw [deliverRaw?_eq walker key inside.ordered inside.base inside.stop]
    simp only [Option.bind_eq_bind, Option.bind_some, complete?_eq below]
    unfold begin
    rw [opens, scalar]
  · rename_i value opens scalar
    simp only [Option.bind_eq_bind, Option.bind_some, complete?_eq frames]
    unfold begin
    rw [opens, scalar]
  · rename_i value group opens scalar
    simp only [Option.bind_eq_bind, Option.bind_some, complete?_eq frames]
    unfold begin
    rw [opens, scalar]
    cases mode <;> rfl
  · rfl

theorem Bounded.openFrame (bounded : walker.Bounded limit) {container : Container}
    {group : Option Group} {built : Building}
    (slots : ∀ values, built = .slots values →
      ∃ wanted, group = some wanted ∧ values.length = wanted.size) :
    (walker.openFrame container group built).Bounded limit := by
  refine ⟨fun frame member => ?_, bounded.skip, bounded.raw⟩
  rcases List.mem_cons.mp member with rfl | below
  · refine ⟨fun index points => ?_, slots⟩
    cases container <;> cases points
  · exact bounded.frames frame below

theorem begin_bounded (bounded : walker.Bounded limit) (mode : EmitMode) (window : Window)
    (treatment : Treatment) (before : token.span.start ≤ limit) :
    (walker.begin mode window treatment token).1.Bounded limit := by
  unfold begin
  cases token.kind.opens? with
  | some container =>
      cases treatment with
      | skip =>
          refine ⟨bounded.frames, ?_, bounded.raw⟩
          rintro stretch ⟨⟩
          exact ⟨Nat.one_pos, before⟩
      | capture name =>
          refine ⟨bounded.frames, bounded.skip, ?_⟩
          rintro capture ⟨⟩
          exact ⟨Nat.one_pos, before⟩
      | keep =>
          apply bounded.openFrame
          intro values same
          cases container <;> cases same
      | project group =>
          apply bounded.openFrame
          intro values same
          refine ⟨group, rfl, ?_⟩
          unfold projected at same
          split at same
          · cases same
          · cases same
            exact List.length_replicate
          · split at same <;> cases same
  | none =>
      cases token.kind.scalar? with
      | none => exact bounded
      | some value =>
          cases treatment with
          | skip =>
              have counted : ({ walker with
                  skipped := walker.skipped + token.span.length } : Walker).Bounded limit :=
                ⟨bounded.frames, bounded.skip, bounded.raw⟩
              exact counted.complete none
          | capture name =>
              have delivered := deliverRaw_delivers walker window name token.span
              exact (bounded.of_delivers delivered).complete none
          | keep => exact bounded.complete (some value)
          | project group =>
              cases mode with
              | materialize => exact bounded.complete (some value)
              | raw => exact bounded.complete none

theorem beginRoot?_eq (frames : ∀ frame ∈ walker.stack, frame.Bounded) (plan : Plan)
    (inside : token.Inside window) :
    walker.beginRoot? plan window token = some (walker.beginRoot plan window token) := by
  unfold beginRoot? beginRoot
  split
  · rfl
  · apply begin?_eq
    · exact frames
    · exact inside

theorem beginRoot_bounded (bounded : walker.Bounded limit) (plan : Plan) (window : Window)
    (before : token.span.start ≤ limit) :
    (walker.beginRoot plan window token).1.Bounded limit := by
  unfold beginRoot
  split
  · exact bounded
  · apply begin_bounded
    · exact ⟨bounded.frames, bounded.skip, bounded.raw⟩
    · exact before

theorem close?_eq (frames : ∀ frame ∈ walker.stack, frame.Bounded) (token : Token) :
    walker.close? token = some (walker.close token) := by
  unfold close? close
  cases stack : walker.stack with
  | nil => rfl
  | cons frame rest =>
      have below : ∀ other ∈ ({ walker with stack := rest } : Walker).stack, other.Bounded := by
        intro other member
        apply frames
        rw [stack]
        exact List.mem_cons_of_mem frame member
      simp only
      split
      · rw [complete?_eq below]
        rfl
      · rfl

theorem close_bounded (bounded : walker.Bounded limit) (token : Token) :
    (walker.close token).1.Bounded limit := by
  unfold close
  cases stack : walker.stack with
  | nil => exact bounded
  | cons frame rest =>
      have below : ({ walker with stack := rest } : Walker).Bounded limit := by
        refine ⟨fun other member => ?_, bounded.skip, bounded.raw⟩
        apply bounded.frames
        rw [stack]
        exact List.mem_cons_of_mem frame member
      simp only
      split
      · exact below.complete _
      · exact below

theorem expecting_bounded (bounded : walker.Bounded limit) {frame : Frame} {rest : List Frame}
    (stack : walker.stack = frame :: rest) {expect : Expect}
    (next : Frame.Bounded { frame with expect }) :
    (walker.expecting frame rest expect).1.Bounded limit := by
  refine ⟨fun other member => ?_, bounded.skip, bounded.raw⟩
  rcases List.mem_cons.mp member with rfl | below
  · exact next
  · apply bounded.frames
    rw [stack]
    exact List.mem_cons_of_mem frame below

theorem pushFrame?_eq {frame : Frame} {rest : List Frame}
    (frames : ∀ frame ∈ walker.stack, frame.Bounded) (stack : walker.stack = frame :: rest)
    (mode : EmitMode) (inside : token.Inside window) :
    walker.pushFrame? mode window frame rest token =
      some (walker.pushFrame mode window frame rest token) := by
  have own : frame.Bounded := by
    apply frames
    rw [stack]
    exact List.mem_cons_self
  have closes := close?_eq frames token
  have begins := begin?_eq frames mode (frame.treatment mode) inside
  unfold pushFrame? pushFrame
  cases frame.expect with
  | value key =>
      simp only [own.treatment?_eq, begins, Option.bind_eq_bind, Option.bind_some]
  | colon key => cases token.kind <;> rfl
  | key orClose =>
      simp only [Frame.key?_eq, closes]
      cases token.kind <;> cases orClose <;> rfl
  | item orClose =>
      simp only [own.treatment?_eq, begins, closes, Option.bind_eq_bind, Option.bind_some]
      split <;> rfl
  | separator =>
      simp only [closes]
      cases frame.container <;> cases token.kind <;> rfl

theorem pushFrame_bounded {frame : Frame} {rest : List Frame} (bounded : walker.Bounded limit)
    (stack : walker.stack = frame :: rest) (mode : EmitMode) (window : Window)
    (before : token.span.start ≤ limit) :
    (walker.pushFrame mode window frame rest token).1.Bounded limit := by
  have own : frame.Bounded := by
    apply bounded.frames
    rw [stack]
    exact List.mem_cons_self
  have closes : (walker.close token).1.Bounded limit := close_bounded bounded token
  have begins : (walker.begin mode window (frame.treatment mode) token).1.Bounded limit :=
    begin_bounded bounded mode window _ before
  have expecting {expect : Expect} (next : Frame.Bounded { frame with expect }) :
      (walker.expecting frame rest expect).1.Bounded limit :=
    expecting_bounded bounded stack next
  unfold pushFrame
  cases expect : frame.expect with
  | value key => exact begins
  | colon key =>
      simp only
      split
      · apply expecting
        apply own.expecting
        right
        rw [expect]
        cases key <;> rfl
      · exact bounded
  | key orClose =>
      simp only
      split
      · exact expecting (own.colon _)
      · exact bounded
      · split
        · exact closes
        · exact bounded
      · exact bounded
  | item orClose =>
      simp only
      split
      · exact closes
      · exact begins
  | separator =>
      simp only
      split
      · split
        · exact expecting (own.expecting (Or.inl rfl))
        · exact expecting (own.expecting (Or.inl rfl))
      · exact closes
      · exact closes
      · exact bounded

/-! ### A step and the end of a chunk -/

theorem push?_eq (bounded : walker.Bounded token.span.stop) (plan : Plan)
    (inside : token.Inside window) :
    walker.push? plan window token = some (walker.push plan window token) := by
  have frames := bounded.frames
  have started {stretch : Stretch} (own : stretch.Bounded token.span.stop) :
      (stretch.push token.kind).start ≤ token.span.stop := by
    rw [Stretch.push_start]
    exact own.before
  unfold push? push
  split
  · rfl
  · cases skips : walker.skip with
    | some stretch =>
        have own := bounded.skip stretch skips
        simp only [Stretch.push?_eq own.opened, Option.bind_eq_bind, Option.bind_some]
        split
        · rw [minus?_eq (started own)]
          simp only [Option.bind_some]
          rw [complete?_eq]
          · rfl
          · exact frames
        · rfl
    | none =>
        cases captures : walker.raw with
        | some capture =>
            obtain ⟨key, stretch⟩ := capture
            have own : stretch.Bounded token.span.stop := bounded.raw _ captures
            simp only [Stretch.push?_eq own.opened, Option.bind_eq_bind, Option.bind_some]
            split
            · have delivered := deliverRaw_delivers { walker with skip := none, raw := none } window
                key ⟨(stretch.push token.kind).start, token.span.stop⟩
              rw [deliverRaw?_eq]
              · simp only [Option.bind_some]
                rw [complete?_eq]
                · rfl
                · rw [delivered.stack]
                  exact frames
              · exact started own
              · exact inside.base
              · exact inside.stop
            · rfl
        | none =>
            cases stack : walker.stack with
            | nil => exact beginRoot?_eq frames plan inside
            | cons frame rest => exact pushFrame?_eq frames stack plan.mode inside

theorem push_bounded (bounded : walker.Bounded token.span.stop) (plan : Plan) (window : Window)
    (ordered : token.span.start ≤ token.span.stop) :
    (walker.push plan window token).1.Bounded token.span.stop := by
  unfold push
  split
  · rw [endOfInput_fst]
    exact bounded
  · split
    · rename_i stretch skips
      simp only
      split
      · have ended : ({ walker with
            skip := none
            skipped := walker.skipped + (token.span.stop - (stretch.push token.kind).start) } :
            Walker).Bounded token.span.stop := by
          refine ⟨bounded.frames, ?_, bounded.raw⟩
          rintro other ⟨⟩
        exact ended.complete none
      · rename_i opened
        refine ⟨bounded.frames, ?_, bounded.raw⟩
        rintro other ⟨⟩
        exact (bounded.skip stretch skips).push opened
    · split
      · rename_i key stretch captures
        simp only
        split
        · have delivered := deliverRaw_delivers { walker with raw := none } window key
            ⟨(stretch.push token.kind).start, token.span.stop⟩
          have ended : ({ walker with raw := none } : Walker).Bounded token.span.stop := by
            refine ⟨bounded.frames, bounded.skip, ?_⟩
            rintro other ⟨⟩
          exact (ended.of_delivers delivered).complete none
        · rename_i opened
          refine ⟨bounded.frames, bounded.skip, ?_⟩
          rintro other ⟨⟩
          exact (bounded.raw _ captures).push opened
      · cases stack : walker.stack with
        | nil => exact beginRoot_bounded bounded plan window ordered
        | cons frame rest => exact pushFrame_bounded bounded stack plan.mode window ordered

theorem leafStart?_eq (frames : ∀ frame ∈ walker.stack, frame.Bounded) (mode : EmitMode)
    (pendingStart? : Option Nat) :
    walker.leafStart? mode pendingStart? = some (walker.rawStart? mode pendingStart?) := by
  unfold leafStart?
  split
  · rename_i frame rest _ _ stack
    have own : frame.Bounded := by
      apply frames
      rw [stack]
      exact List.mem_cons_self
    rw [own.treatment?_eq]
    rfl
  · rfl

theorem endChunk?_eq (bounded : walker.Bounded (window.base + window.bytes.size))
    (mode : EmitMode) {pendingStart? : Option Nat}
    (pending : ∀ start, pendingStart? = some start → start ≤ window.base + window.bytes.size) :
    walker.endChunk? mode window pendingStart? =
      some (walker.endChunk mode window pendingStart?) := by
  have within : ∀ start, walker.rawStart? mode pendingStart? = some start →
      start ≤ window.base + window.bytes.size := by
    intro start raw
    unfold rawStart? at raw
    split at raw
    · rename_i capture captures
      cases raw
      exact (bounded.raw capture captures).before
    · split at raw
      · exact pending start raw
      · cases raw
  unfold endChunk? endChunk
  rw [leafStart?_eq bounded.frames]
  simp only [Option.bind_eq_bind, Option.bind_some]
  cases raw : walker.rawStart? mode pendingStart? with
  | none => rfl
  | some start =>
      simp only [Window.suffix?_eq (within start raw), Option.bind_some]

theorem endChunk_bounded (bounded : walker.Bounded limit) (mode : EmitMode) (window : Window)
    (pendingStart? : Option Nat) :
    (walker.endChunk mode window pendingStart?).Bounded limit := by
  unfold endChunk
  split
  · exact ⟨bounded.frames, bounded.skip, bounded.raw⟩
  · exact ⟨bounded.frames, bounded.skip, bounded.raw⟩

theorem new_bounded (single : Bool) (limit : Nat) : Bounded { new with single } limit := by
  constructor
  case frames => exact fun _ member => absurd member List.not_mem_nil
  case skip => rintro stretch ⟨⟩
  case raw => rintro capture ⟨⟩

end Walker
end JsonProjection
