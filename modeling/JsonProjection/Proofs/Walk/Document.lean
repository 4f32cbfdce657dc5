import JsonProjection.Proofs.Walk.Value

/-!
Walking along a whole document.

A value that fits a selection is walked over to its projection, wherever it stands; at the root it
is delivered, item by item if it is an array.
-/

namespace JsonProjection

open Walk

variable {plan : Plan} {source : Bytes}

theorem opens?_openArray {kind : Token.Kind} (same : kind = .openArray) :
    kind.opens? = some .array := by
  rw [same]
  rfl

theorem opens?_openObject {kind : Token.Kind} (same : kind = .openObject) :
    kind.opens? = some .object := by
  rw [same]
  rfl

/-! ### Values inside a document -/

theorem walks_keep {tree : Tree} (json : tree.IsJson) : Walks plan source .keep tree := by
  induction json with
  | scalar own => exact walks_scalar none own
  | @array items _ ih =>
      intro walker key tokens awaits spelled
      obtain ⟨token, others, rfl, kind, othersSpelled⟩ := List.map_eq_cons_iff.mp spelled
      have opens := opens?_openArray kind
      have pushed := Walker.push_container (Window.whole source) awaits opens
      have walked := walk_items none ih true walker awaits.1 (.items []) (Or.inr fun _ => rfl)
        othersSpelled
      have values (item : Tree) : (Treatment.ofGroup none).value? plan.mode item =
          some item.whole := rfl
      rw [Building.emitted_nil (fun _ => rfl), Walker.deliverAll_nil,
        Building.takeItems_items values, List.append_nil] at walked
      rw [Walker.walk_cons_ok pushed]
      refine walked.trans ?_
      simp only [Frame.result?, List.reverse_reverse, Treatment.ofGroup, Treatment.itemParts,
        Treatment.parts, Treatment.value?, Tree.whole, Tree.wholeItems_eq]
  | @object members _ ih =>
      intro walker key tokens awaits spelled
      obtain ⟨token, others, rfl, kind, othersSpelled⟩ := List.map_eq_cons_iff.mp spelled
      have opens := opens?_openObject kind
      have pushed := Walker.push_container (Window.whole source) awaits opens
      have walked := walk_members none ih true walker awaits.1 (.members []) (fun _ => rfl)
        othersSpelled
      rw [Walker.walk_cons_ok pushed]
      refine walked.trans ?_
      simp only [Frame.result?, Frame.takeMembers_kept, Json.Members.putAll_nil,
        Treatment.ofGroup, Treatment.memberParts, Treatment.parts, Treatment.value?, Tree.whole]

theorem Group.Distinct.treatment {group child : Group} (distinct : group.Distinct)
    {mode : EmitMode} {name : String} (treated : group.treatment mode name = .project child) :
    child.Distinct := by
  unfold Group.treatment Group.get? at treated
  cases found : group.lookup name with
  | none =>
      rw [found] at treated
      cases treated
  | some field =>
      rcases field with ⟨index, selection⟩
      rw [found] at treated
      cases selection with
      | leaf => cases mode <;> cases treated
      | nested inner =>
          cases treated
          exact distinct.lookup found

theorem walk_object {group : Group} (distinct : group.Distinct) {members : List (String × Tree)}
    (each : ∀ member ∈ members,
      Walks plan source (.ofMember (some group) plan.mode member.1) member.2)
    (walker : Walker) (free : walker.Free) {tokens : List Token}
    (spelled : tokens.map (·.kind) = Tree.memberKinds true members) :
    (walker.openFrame .object (some group) (walker.projected plan.mode .object group)).walk plan
        (Window.whole source) tokens =
      ((walker.pass plan.mode source (Tree.memberParts group members tokens)).complete
        ((Treatment.project group).value? plan.mode (.object members)), none) := by
  generalize modeEq : plan.mode = mode
  rw [modeEq] at each
  have walked (building : Building) (quiet : ∀ value?, building.emits value? = []) :=
    walk_members (some group) (modeEq ▸ each) true walker free building quiet spelled
  rw [modeEq] at walked
  cases mode with
  | raw =>
      refine (walked .nothing fun _ => rfl).trans ?_
      rw [Frame.result?, Frame.takeMembers_nothing]
      rfl
  | materialize =>
      refine (walked (.slots (List.replicate group.size none)) fun _ => rfl).trans ?_
      rw [Frame.result?, Frame.takeMembers_group, ← slotsOf_nil,
        Frame.takeMembers_slots distinct.nodup]
      simp only [Option.getD_some, List.nil_append, filledSlots_slotsOf, Treatment.value?,
        Tree.project]
      rfl

theorem walks_fits {treatment : Treatment} {tree : Tree} (fits : tree.Fits plan.mode treatment)
    (distinct : ∀ group, treatment = .project group → group.Distinct) :
    Walks plan source treatment tree := by
  induction fits with
  | skip passable => exact walks_skip passable
  | capture name raw passable => exact walks_capture raw name passable
  | keep json => exact walks_keep json
  | scalar group own => exact walks_scalar (some group) own
  | @array group items _ ih =>
      intro walker key tokens awaits spelled
      obtain ⟨token, others, rfl, kind, othersSpelled⟩ := List.map_eq_cons_iff.mp spelled
      have opens := opens?_openArray kind
      have pushed := Walker.push_container (Window.whole source) awaits opens
      obtain ⟨free, frame, rest, stack, _⟩ := awaits
      have each : ∀ item ∈ items, Walks plan source (.ofGroup (some group)) item :=
        fun item member => ih item member distinct
      have walked (building : Building) (quiet : ∀ value?, building.emits value? = []) :=
        walk_items (some group) each true walker free building (Or.inr quiet) othersSpelled
      rw [Walker.walk_cons_ok pushed]
      simp only [Walker.opened, Walker.projected, stack, List.isEmpty_cons, Bool.false_eq_true,
        if_false]
      cases mode : plan.mode with
      | raw =>
          refine (walked .nothing fun _ => rfl).trans ?_
          rw [Building.emitted_nil fun _ => rfl, Building.takeItems_fixed fun _ => rfl, mode]
          rfl
      | materialize =>
          have values (item : Tree) : (Treatment.ofGroup (some group)).value? plan.mode item =
              some (item.project group) := by
            rw [mode]
            rfl
          refine (walked (.items []) fun _ => rfl).trans ?_
          rw [Building.emitted_nil fun _ => rfl, Building.takeItems_items values, mode,
            List.append_nil]
          simp only [Frame.result?, List.reverse_reverse, Treatment.value?, Tree.project,
            Tree.projectItems_eq]
          rfl
  | @object group members _ ih =>
      intro walker key tokens awaits spelled
      obtain ⟨token, others, rfl, kind, othersSpelled⟩ := List.map_eq_cons_iff.mp spelled
      have opens := opens?_openObject kind
      have pushed := Walker.push_container (Window.whole source) awaits opens
      rw [Walker.walk_cons_ok pushed]
      exact walk_object (distinct group rfl)
        (fun member inside => ih member inside fun child treated =>
          (distinct group rfl).treatment treated) walker awaits.1 othersSpelled

/-! ### Root values -/

def Container.shape : Container → RootShape
  | .object => .single
  | .array => .array

def Tree.shape : Tree → RootShape
  | .array _ => .array
  | _ => .single

def Plan.values (plan : Plan) (tree : Tree) : List Match :=
  match plan.mode with
  | .materialize => (tree.records plan.group).map .value
  | .raw => []

namespace Walker

def root (walker : Walker) (plan : Plan) (source : Bytes) (tree : Tree) (tokens : List Token) :
    Walker :=
  { (walker.pass plan.mode source (tree.parts plan.group tokens)).deliverAll (plan.values tree)
    with roots := walker.roots + 1, shape := some tree.shape }

structure AwaitsRoot (walker : Walker) : Prop where
  free : walker.Free
  stack : walker.stack = []
  room : walker.single = true → walker.roots = 0

variable {walker : Walker} {token : Token}

theorem AwaitsRoot.openBrackets (awaits : walker.AwaitsRoot) : walker.openBrackets = 0 := by
  rw [awaits.free.openBrackets, awaits.stack, List.length_nil]

theorem push_root (plan : Plan) (window : Window) (awaits : walker.AwaitsRoot)
    (inner : token.kind ≠ .endOfInput) {shape : RootShape}
    (shaped : shape = if token.kind = Token.Kind.openArray then .array else .single) :
    walker.push plan window token =
      { walker with shape := some shape }.begin plan.mode window (.project plan.group) token := by
  have room : ¬(walker.single && decide (0 < walker.roots)) = true := by
    intro taken
    obtain ⟨single, some⟩ := Bool.and_eq_true_iff.mp taken
    have roots := awaits.room single
    rw [roots] at some
    cases some
  simp only [push, beginRoot, if_neg inner, awaits.free.skip, awaits.free.raw, awaits.stack,
    if_neg room, shaped]

theorem push_rootContainer (plan : Plan) (window : Window) (awaits : walker.AwaitsRoot)
    {container : Container} (opens : token.kind.opens? = some container) :
    walker.push plan window token =
      (Walker.openFrame { walker with shape := some container.shape } container (some plan.group)
        (walker.projected plan.mode container plan.group), none) := by
  have inner : token.kind ≠ .endOfInput := by
    intro other
    rw [other] at opens
    cases opens
  have shaped : container.shape =
      if token.kind = Token.Kind.openArray then .array else .single := by
    cases kind : token.kind <;> rw [kind] at opens <;> cases opens <;> rfl
  exact (push_root plan window awaits inner shaped).trans
    (begin_container opens plan.mode (.project plan.group))

theorem awaitsRoot_new (single : Bool) :
    AwaitsRoot { new with single } :=
  ⟨⟨rfl, rfl⟩, rfl, fun _ => rfl⟩

theorem endOfInput_root {walker : Walker} (awaits : walker.AwaitsRoot) (plan : Plan)
    (source : Bytes) (tree : Tree) (tokens : List Token) (offset : Nat) :
    ((walker.root plan source tree tokens).endOfInput offset).2 = none := by
  have closed : (walker.root plan source tree tokens).openBrackets = 0 := by
    exact awaits.openBrackets
  have roots : (walker.root plan source tree tokens).roots = walker.roots + 1 := rfl
  unfold endOfInput
  simp only [closed, roots, Nat.lt_irrefl, if_false, beq_false_of_ne (Nat.succ_ne_zero walker.roots),
    Bool.and_false, Bool.false_eq_true]

theorem projected_root (stack : walker.stack = []) (mode : EmitMode) (group : Group) :
    walker.projected mode .array group =
      match mode with
      | .raw => .nothing
      | .materialize => .records := by
  cases mode with
  | raw => rfl
  | materialize => simp only [projected, stack, List.isEmpty_nil, if_true]

theorem complete_root (stack : walker.stack = []) (value? : Option Json.Value) :
    walker.complete value? =
      { walker.deliverAll (value?.toList.map .value) with roots := walker.roots + 1 } := by
  rw [complete_of_nil stack]
  cases value? <;> rfl

theorem complete_project (stack : walker.stack = []) {tree : Tree}
    (records : tree.records plan.group = [tree.project plan.group]) :
    walker.complete ((Treatment.project plan.group).value? plan.mode tree) =
      { walker.deliverAll (plan.values tree) with roots := walker.roots + 1 } := by
  rw [complete_root stack, Plan.values, records]
  cases plan.mode <;> rfl

theorem walk_rootScalar (awaits : walker.AwaitsRoot) {own : Scalar} {tokens : List Token}
    (spelled : tokens.map (·.kind) = (Tree.scalar own).kinds) :
    walker.walk plan (Window.whole source) tokens =
      (walker.root plan source (.scalar own) tokens, none) := by
  obtain ⟨token, rfl, kind⟩ := List.map_eq_singleton_iff.mp spelled
  have scalar : token.kind.scalar? = some own.value := by
    rw [kind]
    exact own.spells
  have inner : token.kind ≠ .endOfInput := by
    rw [kind]
    exact own.other.2.2
  have noArray : token.kind ≠ .openArray := by
    intro other
    rw [other] at scalar
    cases scalar
  have pushed := (push_root plan (Window.whole source) awaits inner
    (if_neg noArray).symm).trans (begin_scalar scalar plan.mode (.project plan.group))
  rw [walk_cons_ok pushed, walk_nil, root, Tree.parts, pass_nil]
  have stack : Walker.stack { walker with shape := some RootShape.single } = [] :=
    awaits.stack
  have completed := complete_project stack
    (rfl : (Tree.scalar own).records plan.group = [own.value])
  cases mode : plan.mode <;> rw [mode] at completed <;> exact congrArg (·, none) completed

theorem walk_rootArray (awaits : walker.AwaitsRoot) {items : List Tree}
    (each : ∀ item ∈ items, Walks plan source (.ofGroup (some plan.group)) item)
    {tokens : List Token} (spelled : tokens.map (·.kind) = (Tree.array items).kinds) :
    walker.walk plan (Window.whole source) tokens =
      (walker.root plan source (.array items) tokens, none) := by
  obtain ⟨token, others, rfl, kind, othersSpelled⟩ := List.map_eq_cons_iff.mp spelled
  have pushed := push_rootContainer plan (Window.whole source) awaits (opens?_openArray kind)
  have walked (building : Building) (quiet) :=
    walk_items (some plan.group) each true
      { walker with shape := some RootShape.array } ⟨awaits.free.skip, awaits.free.raw⟩ building
      quiet othersSpelled
  have stack : Walker.stack { walker with shape := some RootShape.array } = [] :=
    awaits.stack
  have building := projected_root awaits.stack plan.mode plan.group
  rw [walk_cons_ok pushed]
  simp only [building]
  cases mode : plan.mode with
  | raw =>
      refine (walked .nothing (Or.inr fun _ => rfl)).trans ?_
      rw [Building.emitted_nil fun _ => rfl, Building.takeItems_fixed fun _ => rfl,
        complete_root (by exact stack)]
      simp only [root, Plan.values, mode]
      rfl
  | materialize =>
      refine (walked .records (Or.inl mode)).trans ?_
      have emitted : (items.flatMap fun item => Building.records.emits
          ((Treatment.ofGroup (some plan.group)).value? plan.mode item)) =
          plan.values (.array items) := by
        simp only [Plan.values, mode, Tree.records, Treatment.ofGroup, Treatment.value?,
          Building.emits, List.map_map]
        exact List.map_eq_flatMap.symm
      rw [Building.takeItems_fixed fun _ => rfl, emitted, complete_root (by exact stack)]
      rfl

theorem walk_rootObject (awaits : walker.AwaitsRoot) (distinct : plan.group.Distinct)
    {members : List (String × Tree)}
    (each : ∀ member ∈ members,
      Walks plan source (.ofMember (some plan.group) plan.mode member.1) member.2)
    {tokens : List Token} (spelled : tokens.map (·.kind) = (Tree.object members).kinds) :
    walker.walk plan (Window.whole source) tokens =
      (walker.root plan source (.object members) tokens, none) := by
  obtain ⟨token, others, rfl, kind, othersSpelled⟩ := List.map_eq_cons_iff.mp spelled
  have pushed := push_rootContainer plan (Window.whole source) awaits (opens?_openObject kind)
  have walked := walk_object distinct each { walker with shape := some RootShape.single }
    ⟨awaits.free.skip, awaits.free.raw⟩ othersSpelled
  rw [walk_cons_ok pushed]
  refine walked.trans ?_
  rw [complete_project (by exact awaits.stack) rfl]
  rfl

end Walker

theorem walk_root {tree : Tree} (fits : tree.Fits plan.mode (.project plan.group))
    (distinct : plan.group.Distinct) {walker : Walker} (awaits : walker.AwaitsRoot)
    {tokens : List Token} (spelled : tokens.map (·.kind) = tree.kinds) :
    walker.walk plan (Window.whole source) tokens =
      (walker.root plan source tree tokens, none) := by
  cases fits with
  | scalar _ own => exact Walker.walk_rootScalar awaits spelled
  | @array _ items inner =>
      apply Walker.walk_rootArray awaits ?_ spelled
      intro item member
      apply walks_fits (inner item member)
      intro group same
      cases same
      exact distinct
  | @object _ members inner =>
      apply Walker.walk_rootObject awaits distinct ?_ spelled
      intro member within
      apply walks_fits (inner member within)
      intro group treated
      exact distinct.treatment treated

end JsonProjection
