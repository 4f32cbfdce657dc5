import JsonProjection.Proofs.Walk.Single
import JsonProjection.Proofs.Walk.Value

/-!
What a walk still needs.

`Walker.Needs` says which kinds of tokens complete a walk for one root value. A step that is not
refused turns what completes the walk behind it into what completes the walk in front of it, and
there is always something that does. So a walk gets as far as its tokens are the beginning of a
document that fits.
-/

namespace JsonProjection

open Walk

/-! ### What containers need -/

namespace Walk

def Frame.FitMembers (mode : EmitMode) (frame : Frame) (members : List (String × Tree)) : Prop :=
  ∀ member ∈ members, member.2.Fits mode (.ofMember frame.group mode member.1)

def Frame.FitItems (mode : EmitMode) (frame : Frame) (items : List Tree) : Prop :=
  ∀ item ∈ items, item.Fits mode (.ofGroup frame.group)

def Frame.Tail (mode : EmitMode) (frame : Frame) (kinds : List Token.Kind) : Prop :=
  match frame.container with
  | .object => ∃ members, frame.FitMembers mode members ∧ kinds = Tree.memberKinds false members
  | .array => ∃ items, frame.FitItems mode items ∧ kinds = Tree.itemKinds false items

/-- What closes a container at the point where it is. -/
def Frame.Needs (mode : EmitMode) (frame : Frame) (kinds : List Token.Kind) : Prop :=
  match frame.expect with
  | .key orClose => ∃ members, frame.FitMembers mode members ∧ (members = [] → orClose = true) ∧
      kinds = Tree.memberKinds true members
  | .colon key => ∃ (value : Tree) (tail : List Token.Kind),
      value.Fits mode (Frame.treatment { frame with expect := .value key } mode) ∧
        frame.Tail mode tail ∧ kinds = .colon :: (value.kinds ++ tail)
  | .value _ => ∃ (value : Tree) (tail : List Token.Kind),
      value.Fits mode (frame.treatment mode) ∧ frame.Tail mode tail ∧ kinds = value.kinds ++ tail
  | .item orClose => ∃ items, frame.FitItems mode items ∧ (items = [] → orClose = true) ∧
      kinds = Tree.itemKinds true items
  | .separator => frame.Tail mode kinds

def Tails (mode : EmitMode) : List Frame → List Token.Kind → Prop
  | [], kinds => kinds = []
  | frame :: rest, kinds =>
    ∃ own behind, kinds = own ++ behind ∧ frame.Tail mode own ∧ Tails mode rest behind

theorem Frame.tail_of_members {mode : EmitMode} {frame : Frame} (object : frame.container = .object)
    {members : List (String × Tree)} (fits : frame.FitMembers mode members)
    (some : members ≠ []) : frame.Tail mode (.comma :: Tree.memberKinds true members) := by
  unfold Frame.Tail
  rw [object]
  refine ⟨members, fits, ?_⟩
  cases members with
  | nil => exact absurd rfl some
  | cons member rest => rfl

theorem Frame.tail_of_items {mode : EmitMode} {frame : Frame} (array : frame.container = .array)
    {items : List Tree} (fits : frame.FitItems mode items) (some : items ≠ []) :
    frame.Tail mode (.comma :: Tree.itemKinds true items) := by
  unfold Frame.Tail
  rw [array]
  refine ⟨items, fits, ?_⟩
  cases items with
  | nil => exact absurd rfl some
  | cons item rest => rfl

theorem Frame.tail_of_close {mode : EmitMode} {frame : Frame} {kind : Token.Kind}
    (closes : kind.closes? = some frame.container) : frame.Tail mode [kind] := by
  unfold Frame.Tail
  cases container : frame.container with
  | object =>
      refine ⟨[], fun _ member => absurd member List.not_mem_nil, ?_⟩
      rw [container] at closes
      cases kind <;> first | rfl | cases closes
  | array =>
      refine ⟨[], fun _ member => absurd member List.not_mem_nil, ?_⟩
      rw [container] at closes
      cases kind <;> first | rfl | cases closes

theorem Frame.items_of_tail {mode : EmitMode} {frame : Frame} (array : frame.container = .array)
    {value : Tree} (fits : value.Fits mode (.ofGroup frame.group)) {tail : List Token.Kind}
    (behind : frame.Tail mode tail) :
    ∃ items, frame.FitItems mode items ∧ items ≠ [] ∧
      value.kinds ++ tail = Tree.itemKinds true items := by
  unfold Frame.Tail at behind
  rw [array] at behind
  obtain ⟨items, fit, rfl⟩ := behind
  refine ⟨value :: items, fun item member => ?_, List.cons_ne_nil value items, rfl⟩
  rcases List.mem_cons.mp member with same | later
  · rw [same]
    exact fits
  · exact fit item later

theorem Frame.members_of_tail {mode : EmitMode} {frame : Frame}
    (object : frame.container = .object) {name : String} {value : Tree}
    (fits : value.Fits mode (.ofMember frame.group mode name)) {tail : List Token.Kind}
    (behind : frame.Tail mode tail) :
    ∃ members, frame.FitMembers mode members ∧ members ≠ [] ∧
      .string name :: .colon :: (value.kinds ++ tail) = Tree.memberKinds true members := by
  unfold Frame.Tail at behind
  rw [object] at behind
  obtain ⟨members, fit, rfl⟩ := behind
  refine ⟨(name, value) :: members, fun member inside => ?_, List.cons_ne_nil _ members, rfl⟩
  rcases List.mem_cons.mp inside with same | later
  · rw [same]
    exact fits
  · exact fit member later

theorem Frame.treatment_key {frame : Frame} (object : frame.container = .object)
    (mode : EmitMode) (name : String) :
    Frame.treatment { frame with expect := .value (frame.key name) } mode =
      .ofMember frame.group mode name := by
  rcases frame with ⟨container, group?, expect, building⟩
  cases object
  exact Frame.treatment_member group? mode name building expect

theorem Frame.treatment_array {frame : Frame} (array : frame.container = .array)
    (mode : EmitMode) : frame.treatment mode = .ofGroup frame.group := by
  rcases frame with ⟨container, group?, expect, building⟩
  cases array
  cases group? <;> rfl

theorem Frame.treatment_suits (frame : Frame) (mode : EmitMode) :
    (frame.treatment mode).Suits mode := by
  intro name captured
  cases mode with
  | raw => rfl
  | materialize =>
      rcases frame with ⟨container, _ | group, expect, building⟩
      · cases captured
      · cases container with
        | array => cases captured
        | object =>
            cases expect with
            | value key =>
                cases key with
                | field index =>
                    simp only [Frame.treatment] at captured
                    rcases field : group.fields[index]? with _ | ⟨own, _ | child⟩ <;>
                      rw [field] at captured <;> cases captured
                | kept own => cases captured
                | ignored => cases captured
            | _ => cases captured

def Stretch.Needs (mode : EmitMode) (stack : List Frame) (stretch : Stretch)
    (kinds : List Token.Kind) : Prop :=
  ∃ own behind, kinds = own ++ behind ∧ Closes stretch.depth own ∧ Tails mode stack behind

end Walk

/-! ### What a walk needs -/

namespace Walker

/-- What completes a walk for one root value. -/
def Needs (plan : Plan) (walker : Walker) (kinds : List Token.Kind) : Prop :=
  match walker.skip, walker.raw with
  | some stretch, _ => stretch.Needs plan.mode walker.stack kinds
  | none, some capture => capture.stretch.Needs plan.mode walker.stack kinds
  | none, none =>
    match walker.stack with
    | [] => if walker.roots = 0 then plan.Accepts kinds else kinds = []
    | frame :: rest => ∃ own behind, kinds = own ++ behind ∧ frame.Needs plan.mode own ∧
        Tails plan.mode rest behind

variable {plan : Plan} {window : Window} {walker next : Walker} {token : Token}
  {kinds : List Token.Kind}

theorem needs_of_skip {stretch : Stretch} (skips : walker.skip = some stretch) :
    walker.Needs plan kinds ↔ stretch.Needs plan.mode walker.stack kinds := by
  unfold Needs
  rw [skips]

theorem needs_of_raw {key : String} {stretch : Stretch} (passes : walker.skip = none)
    (captures : walker.raw = some ⟨key, stretch⟩) :
    walker.Needs plan kinds ↔ stretch.Needs plan.mode walker.stack kinds := by
  unfold Needs
  rw [passes, captures]

theorem Free.needs_iff (free : walker.Free) :
    walker.Needs plan kinds ↔
      match walker.stack with
      | [] => if walker.roots = 0 then plan.Accepts kinds else kinds = []
      | frame :: rest => ∃ own behind, kinds = own ++ behind ∧ frame.Needs plan.mode own ∧
          Tails plan.mode rest behind := by
  unfold Needs
  rw [free.skip, free.raw]

theorem Free.needs_complete (free : walker.Free) (value? : Option Json.Value) :
    (walker.complete value?).Needs plan kinds ↔ Tails plan.mode walker.stack kinds := by
  rw [(free.complete value?).needs_iff, complete_stack, complete_roots]
  cases walker.stack with
  | nil => simp only [Nat.add_eq_zero_iff, Nat.one_ne_zero, and_false, if_false]; rfl
  | cons frame rest => rfl

/-! ### One step -/

theorem closes_push {depth start : Nat} {kind : Token.Kind} (inner : kind ≠ .endOfInput)
    (opened : (Stretch.push ⟨depth, start⟩ kind).depth ≠ 0) {own : List Token.Kind}
    (closes : Closes (Stretch.push ⟨depth, start⟩ kind).depth own) :
    Closes depth (kind :: own) := by
  unfold Stretch.push at closes opened
  split at closes
  · rename_i opens
    exact .opens opens closes
  · rename_i noOpening
    rw [if_neg noOpening] at opened
    split at closes
    · rename_i closing
      rw [if_pos closing] at opened
      obtain ⟨less, rfl⟩ : ∃ less, depth = less + 2 := ⟨depth - 2, by simp only at opened; omega⟩
      exact .closes closing closes
    · rename_i noClosing
      exact .other (Option.not_isSome_iff_eq_none.mp noOpening)
        (Option.not_isSome_iff_eq_none.mp noClosing) inner closes

theorem closes_end {depth start : Nat} {kind : Token.Kind} (opened : 0 < depth)
    (closed : (Stretch.push ⟨depth, start⟩ kind).depth = 0) : Closes depth [kind] := by
  unfold Stretch.push at closed
  split at closed
  · cases closed
  · split at closed
    · rename_i closing
      obtain rfl : depth = 1 := by
        simp only at closed
        omega
      exact .last closing
    · simp only at closed
      omega

theorem begin_needs {treatment : Treatment} (free : walker.Free)
    (suits : treatment.Suits plan.mode)
    (begun : BeginStep walker plan.mode treatment token next) (needs : next.Needs plan kinds) :
    ∃ (tree : Tree) (more : List Token.Kind), tree.Fits plan.mode treatment ∧
      token.kind :: kinds = tree.kinds ++ more ∧ Tails plan.mode walker.stack more := by
  cases begun with
  | @scalar delivered value value? scalar delivers =>
      rw [(delivers.free free).needs_complete, delivers.stack] at needs
      exact ⟨.scalar ⟨token.kind, value, scalar⟩, kinds, (Tree.IsJson.scalar _).fits suits, rfl,
        needs⟩
  | skip opens skipped =>
      obtain ⟨own, behind, rfl, closes, tails⟩ := needs
      refine ⟨.stretch (token.kind :: own), behind, ?_, rfl, tails⟩
      rw [skipped]
      exact .skip (.stretch (by rw [opens]; rfl) closes)
  | @capture container name opens captured =>
      obtain ⟨own, behind, rfl, closes, tails⟩ := (needs_of_raw (by exact free.skip) rfl).mp needs
      refine ⟨.stretch (token.kind :: own), behind, ?_, rfl, tails⟩
      rw [captured]
      exact .capture name (suits name captured) (.stretch (by rw [opens]; rfl) closes)
  | @container container group? built opens looked =>
      have treated : treatment = .ofGroup group? := by
        rcases looked with ⟨rfl, rfl⟩ | ⟨wanted, rfl, rfl⟩ <;> rfl
      have stays : (walker.openFrame container group? built).Free := ⟨free.skip, free.raw⟩
      obtain ⟨own, behind, rfl, inside, tails⟩ := stays.needs_iff.mp needs
      subst treated
      cases container with
      | object =>
          obtain ⟨members, fits, _, rfl⟩ := inside
          have kind : token.kind = .openObject := by
            cases kind : token.kind <;> first | rfl | (rw [kind] at opens; cases opens)
          refine ⟨.object members, behind, ?_, by rw [kind]; rfl, tails⟩
          cases group? with
          | none =>
              refine .keep (.object fun member inside => ?_)
              cases fits member inside with
              | keep json => exact json
          | some group => exact .object fits
      | array =>
          obtain ⟨items, fits, _, rfl⟩ := inside
          have kind : token.kind = .openArray := by
            cases kind : token.kind <;> first | rfl | (rw [kind] at opens; cases opens)
          refine ⟨.array items, behind, ?_, by rw [kind]; rfl, tails⟩
          cases group? with
          | none =>
              refine .keep (.array fun item member => ?_)
              cases fits item member with
              | keep json => exact json
          | some group => exact .array fits

theorem FrameStep.needs {frame : Frame} {rest : List Frame}
    (free : walker.Free) (stack : walker.stack = frame :: rest)
    (own : frame.Sound) (step : FrameStep walker plan.mode window frame rest token next)
    (needs : next.Needs plan kinds) :
    ∃ here behind, token.kind :: kinds = here ++ behind ∧ frame.Needs plan.mode here ∧
      Tails plan.mode rest behind := by
  unfold Frame.Sound at own
  have stays (expect : Expect) : (expectNext frame rest expect walker).Free :=
    ⟨free.skip, free.raw⟩
  cases step with
  | @key orClose name expect kind =>
      rw [expect] at own
      obtain ⟨here, behind, rfl, ⟨value, tail, fits, tailed, rfl⟩, tails⟩ :=
        (stays _).needs_iff.mp needs
      have treated := Frame.treatment_key own plan.mode name
      rw [treated] at fits
      obtain ⟨members, fit, some, spelled⟩ := Frame.members_of_tail own fits tailed
      refine ⟨.string name :: .colon :: (value.kinds ++ tail), behind, by rw [kind]; rfl, ?_,
        tails⟩
      unfold Frame.Needs
      rw [expect]
      exact ⟨members, fit, fun none => absurd none some, spelled⟩
  | @colon key expect kind =>
      obtain ⟨here, behind, rfl, ⟨value, tail, fits, tailed, rfl⟩, tails⟩ :=
        (stays _).needs_iff.mp needs
      refine ⟨token.kind :: (value.kinds ++ tail), behind, rfl, ?_, tails⟩
      unfold Frame.Needs
      rw [expect, kind]
      exact ⟨value, tail, fits, tailed, rfl⟩
  | @comma expect separator kind follows =>
      obtain ⟨here, behind, rfl, inside, tails⟩ := (stays _).needs_iff.mp needs
      refine ⟨token.kind :: here, behind, rfl, ?_, tails⟩
      unfold Frame.Needs
      rw [separator, kind]
      rcases follows with ⟨container, rfl⟩ | ⟨container, rfl⟩
      · obtain ⟨members, fits, some, rfl⟩ := inside
        exact Frame.tail_of_members container fits fun none => Bool.false_ne_true (some none)
      · obtain ⟨items, fits, some, rfl⟩ := inside
        exact Frame.tail_of_items container fits fun none => Bool.false_ne_true (some none)
  | close expect closed =>
      obtain ⟨top, below, split, closes, rfl⟩ := close_cases closed
      rw [stack] at split
      cases split
      have popped : Free { walker with stack := rest } := ⟨free.skip, free.raw⟩
      rw [popped.needs_complete] at needs
      refine ⟨[token.kind], kinds, rfl, ?_, needs⟩
      unfold Frame.Needs
      rcases expect with ⟨expect, kind⟩ | ⟨expect, kind⟩ | expect
      · rw [expect, kind]
        exact ⟨[], fun _ member => absurd member List.not_mem_nil, fun _ => rfl, rfl⟩
      · rw [expect, kind]
        exact ⟨[], fun _ member => absurd member List.not_mem_nil, fun _ => rfl, rfl⟩
      · rw [expect]
        exact Frame.tail_of_close closes
  | value expect begun =>
      obtain ⟨tree, more, fits, spelled, tails⟩ :=
        begin_needs free (frame.treatment_suits plan.mode) (begin_cases begun) needs
      rw [stack] at tails
      obtain ⟨tail, behind, rfl, tailed, tails⟩ := tails
      refine ⟨tree.kinds ++ tail, behind, by rw [spelled, List.append_assoc], ?_, tails⟩
      unfold Frame.Needs
      rcases expect with ⟨key, expect⟩ | ⟨orClose, expect, _⟩
      · rw [expect]
        exact ⟨tree, tail, fits, tailed, rfl⟩
      · rw [expect] at own
        rw [Frame.treatment_array own] at fits
        obtain ⟨items, fit, some, spelled⟩ := Frame.items_of_tail own fits tailed
        rw [expect]
        exact ⟨items, fit, fun none => absurd none some, spelled⟩

/-- What completes a walk behind a token completes it in front of that token, with the token. -/
theorem push_needs (sound : walker.Sound) (single : walker.single = true)
    (inner : token.kind ≠ .endOfInput)
    (pushed : walker.push plan window token = (next, none)) (needs : next.Needs plan kinds) :
    walker.Needs plan (token.kind :: kinds) := by
  cases push_cases inner pushed with
  | @skip stretch skips opened =>
      obtain ⟨own, behind, rfl, closes, tails⟩ := needs
      rw [needs_of_skip skips]
      exact ⟨token.kind :: own, behind, rfl, closes_push inner opened closes, tails⟩
  | @skipped stretch skips closed =>
      have ended : Free { walker with
          skip := none
          skipped := walker.skipped + (token.span.stop - stretch.start) } :=
        ⟨rfl, sound.raw_none skips⟩
      rw [ended.needs_complete] at needs
      rw [needs_of_skip skips]
      exact ⟨[token.kind], kinds, rfl, closes_end (sound.skip _ skips).2 closed, needs⟩
  | @capture key stretch passes captures opened =>
      obtain ⟨own, behind, rfl, closes, tails⟩ := (needs_of_raw (by exact passes) rfl).mp needs
      rw [needs_of_raw passes captures]
      exact ⟨token.kind :: own, behind, rfl, closes_push inner opened closes, tails⟩
  | @captured key stretch passes captures closed =>
      have delivers := deliverRaw_delivers { walker with raw := none } window key
        ⟨stretch.start, token.span.stop⟩
      have ended := delivers.free ⟨passes, rfl⟩
      rw [ended.needs_complete, delivers.stack] at needs
      rw [needs_of_raw passes captures]
      exact ⟨[token.kind], kinds, rfl, closes_end (sound.raw _ captures).2 closed, needs⟩
  | root free stack first begun =>
      have noRoot : walker.roots = 0 := by
        by_cases none : walker.roots = 0
        · exact none
        · exact absurd ⟨single, Nat.pos_of_ne_zero none⟩ first
      obtain ⟨tree, more, fits, spelled, tails⟩ := begin_needs (by exact ⟨free.skip, free.raw⟩)
        (fun name other => by cases other) (begin_cases begun) needs
      have none : more = [] := by
        rw [stack] at tails
        exact tails
      rw [free.needs_iff, stack]
      simp only [noRoot, if_true]
      exact ⟨tree, fits, by rw [spelled, none, List.append_nil]⟩
  | @frame _ top rest free stack step =>
      have own : top.Sound := sound.frames top (by rw [stack]; exact List.mem_cons_self)
      obtain ⟨here, behind, spelled, inside, tails⟩ := step.needs free stack own needs
      rw [free.needs_iff, stack]
      exact ⟨here, behind, spelled, inside, tails⟩

/-! ### Something always completes a walk -/

def anyValue : Tree :=
  .scalar ⟨.null, .null, rfl⟩

theorem anyValue_fits {mode : EmitMode} {treatment : Treatment} (suits : treatment.Suits mode) :
    anyValue.Fits mode treatment :=
  (Tree.IsJson.scalar _).fits suits

theorem suits_ofMember (group? : Option Group) (mode : EmitMode) (name : String) :
    (Treatment.ofMember group? mode name).Suits mode := by
  cases group? with
  | none => exact fun captured other => by cases other
  | some group => exact group.treatment_suits mode name

theorem exists_tail (mode : EmitMode) (frame : Frame) : ∃ kinds, frame.Tail mode kinds := by
  cases container : frame.container with
  | object =>
      refine ⟨[.closeObject], Frame.tail_of_close ?_⟩
      rw [container]
      rfl
  | array =>
      refine ⟨[.closeArray], Frame.tail_of_close ?_⟩
      rw [container]
      rfl

theorem exists_tails (mode : EmitMode) (stack : List Frame) : ∃ kinds, Tails mode stack kinds := by
  induction stack with
  | nil => exact ⟨[], rfl⟩
  | cons frame rest ih =>
      obtain ⟨own, tail⟩ := exists_tail mode frame
      obtain ⟨behind, tails⟩ := ih
      exact ⟨own ++ behind, own, behind, rfl, tail, tails⟩

theorem exists_closes (depth : Nat) : ∃ kinds, Closes (depth + 1) kinds := by
  induction depth with
  | zero => exact ⟨[.closeArray], .last rfl⟩
  | succ depth ih =>
      obtain ⟨kinds, closes⟩ := ih
      exact ⟨.closeArray :: kinds, .closes rfl closes⟩

theorem exists_stretch (mode : EmitMode) (stack : List Frame) {stretch : Stretch}
    (opened : 0 < stretch.depth) : ∃ kinds, stretch.Needs mode stack kinds := by
  obtain ⟨own, closes⟩ := exists_closes (stretch.depth - 1)
  rw [Nat.sub_add_cancel opened] at closes
  obtain ⟨behind, tails⟩ := exists_tails mode stack
  exact ⟨own ++ behind, own, behind, rfl, closes, tails⟩

theorem exists_frame {frame : Frame} (own : frame.Sound) (mode : EmitMode) :
    ∃ kinds, frame.Needs mode kinds := by
  obtain ⟨tail, tailed⟩ := exists_tail mode frame
  unfold Frame.Sound at own
  unfold Frame.Needs
  cases expect : frame.expect with
  | separator => exact ⟨tail, tailed⟩
  | value key =>
      exact ⟨_, anyValue, tail, anyValue_fits (frame.treatment_suits mode), tailed, rfl⟩
  | colon key =>
      exact ⟨_, anyValue, tail, anyValue_fits (Frame.treatment_suits _ mode), tailed, rfl⟩
  | key orClose =>
      rw [expect] at own
      obtain ⟨members, fits, some, _⟩ := Frame.members_of_tail own
        (anyValue_fits (suits_ofMember frame.group mode "")) tailed
      exact ⟨_, members, fits, fun none => absurd none some, rfl⟩
  | item orClose =>
      rw [expect] at own
      obtain ⟨items, fits, some, _⟩ := Frame.items_of_tail own
        (anyValue_fits (Frame.treatment_array own mode ▸ frame.treatment_suits mode)) tailed
      exact ⟨_, items, fits, fun none => absurd none some, rfl⟩

theorem exists_needs (plan : Plan) (sound : walker.Sound) : ∃ kinds, walker.Needs plan kinds := by
  cases skips : walker.skip with
  | some stretch =>
      simp only [needs_of_skip skips]
      exact exists_stretch plan.mode walker.stack (sound.skip stretch skips).2
  | none =>
      cases captures : walker.raw with
      | some capture =>
          simp only [needs_of_raw skips captures]
          exact exists_stretch plan.mode walker.stack (sound.raw capture captures).2
      | none =>
          have free : walker.Free := ⟨skips, captures⟩
          simp only [free.needs_iff]
          cases stack : walker.stack with
          | nil =>
              by_cases none : walker.roots = 0
              · simp only [none, if_true]
                have fits : anyValue.Fits plan.mode (.project plan.group) :=
                  anyValue_fits fun name other => by cases other
                exact ⟨_, anyValue, fits, rfl⟩
              · simp only [none, if_false]
                exact ⟨[], rfl⟩
          | cons frame rest =>
              obtain ⟨after, tails⟩ := exists_tails plan.mode rest
              obtain ⟨own, inside⟩ := exists_frame
                (sound.frames frame (by rw [stack]; exact List.mem_cons_self)) plan.mode
              exact ⟨own ++ after, own, after, rfl, inside, tails⟩

/-! ### Whole walks -/

variable {tokens : List Token}

theorem walk_needs (sound : walker.Sound) (single : walker.single = true)
    (inner : ∀ token ∈ tokens, token.kind ≠ .endOfInput)
    (walked : walker.walk plan window tokens = (next, none)) (needs : next.Needs plan kinds) :
    walker.Needs plan (tokens.map (·.kind) ++ kinds) := by
  induction tokens generalizing walker with
  | nil =>
      cases walked
      exact needs
  | cons token rest ih =>
      obtain ⟨middle, pushed, behind⟩ := walk_cons_eq_none walked
      have own := inner token List.mem_cons_self
      have kept := push_single single own pushed
      exact push_needs sound single own pushed (ih (push_sound sound own pushed) kept.2
        (fun other member => inner other (List.mem_cons_of_mem token member)) behind)

/-- The tokens of a walk that gets through can be completed to a document. -/
theorem walk_viable (inner : ∀ token ∈ tokens, token.kind ≠ .endOfInput)
    (walked : walk plan window { new with single := true } tokens = (next, none)) :
    plan.Viable (tokens.map (·.kind)) := by
  obtain ⟨kinds, needs⟩ := exists_needs plan (walk_sound (sound_new true) inner walked)
  exact ⟨kinds, walk_needs (sound_new true) rfl inner walked needs⟩

theorem walk_accepts (inner : ∀ token ∈ tokens, token.kind ≠ .endOfInput)
    (walked : walk plan window { new with single := true } tokens = (next, none)) {offset : Nat}
    (ended : (next.endOfInput offset).2 = none) : plan.Accepts (tokens.map (·.kind)) := by
  have single := walk_single rfl inner walked
  have sound := walk_sound (sound_new true) inner walked
  obtain ⟨stack, roots⟩ := endOfInput_none ended
  have needs : next.Needs plan [] := by
    rw [(sound.free_of_nil stack).needs_iff, stack]
    simp only [roots single, if_false]
  have all := walk_needs (sound_new true) rfl inner walked needs
  rw [List.append_nil] at all
  exact all

end Walker
end JsonProjection
