import JsonProjection.Proofs.Walk.Document

/-!
The leaves that a walk comes by.

Where values are built, a leaf of the selection is kept whole. `Walker.Visits` follows a walk from
one leaf to the next: in front of each the walker awaits a value that it keeps, for the slot of the
leaf's field, and behind it that value is built.
-/

namespace JsonProjection

open Walk

/-! ### Slots -/

def Walk.Building.HasSlots (building : Building) (group : Group) : Prop :=
  ∃ values, building = .slots values ∧ values.length = group.size

theorem Walk.Building.HasSlots.member {building : Building} {group : Group}
    (slots : building.HasSlots group) (name : String) (value? : Option Json.Value) :
    (Frame.member ⟨.object, some group, .separator, building⟩ name value?).building.HasSlots
      group := by
  obtain ⟨values, rfl, length⟩ := slots
  unfold Frame.member Frame.accept
  dsimp only
  split
  next index value same other =>
    cases same
    exact ⟨_, rfl, by rw [List.length_set, length]⟩
  · cases ‹Building.slots values = _›
  · cases ‹Building.slots values = _›
  · exact ⟨values, rfl, length⟩

namespace Walker

/-- The value of a leaf of this name comes next, for its slot in the innermost container. -/
def AwaitsLeaf (walker : Walker) (name : String) : Prop :=
  ∃ frame rest group index, walker.stack = frame :: rest ∧ frame.group = some group ∧
    group.lookup name = some (index, .leaf) ∧ frame.expect = .value (.field index) ∧
    frame.building.HasSlots group

def field? (walker : Walker) (name : String) : Option Json.Value :=
  match walker.stack with
  | [] => none
  | frame :: _ =>
    match frame.building, frame.group.bind (·.lookup name) with
    | .slots values, some (index, _) => values[index]?.join
    | _, _ => none

theorem AwaitsLeaf.complete {walker : Walker} {name : String} (awaits : walker.AwaitsLeaf name)
    (value : Json.Value) : (walker.complete (some value)).field? name = some value := by
  obtain ⟨frame, rest, group, index, stack, own, found, expect, values, building, length⟩ := awaits
  have inside : index < values.length := by
    rw [length]
    exact (List.getElem?_eq_some_iff.mp (Group.lookup_fields found)).1
  have accepted : frame.accept (some value) =
      { frame with expect := .separator, building := .slots (values.set index (some value)) } := by
    unfold Frame.accept
    simp only [building, expect]
  unfold field?
  rw [complete_stack, stack]
  simp only [accepted, own, Option.bind_some, found, List.getElem?_set_self inside,
    Option.join_some]

end Walker

/-! ### Walks -/

/-- A walk along tokens that comes by some leaves in this order. In front of a leaf the walker waits
for a value that it keeps whole; behind it, it has built the value that the leaf's tokens spell. -/
inductive Walker.Visits (plan : Plan) (source : Bytes) :
    Walker → List Token → List Part → Prop where
  | nil (walker : Walker) (tokens : List Token) : Visits plan source walker tokens []
  | cons {walker middle : Walker} {front back : List Token} {leaf : Part} {rest : List Part}
      (walked : walker.walk plan (Window.whole source) front = (middle, none))
      (awaits : middle.Awaits plan.mode .keep) (field : middle.AwaitsLeaf leaf.key)
      (json : leaf.tree.IsJson) (spelled : leaf.tokens.map (·.kind) = leaf.tree.kinds)
      (behind : Visits plan source (middle.complete (some leaf.tree.whole)) back rest) :
      Visits plan source walker (front ++ (leaf.tokens ++ back)) (leaf :: rest)

namespace Walker

variable {plan : Plan} {source : Bytes} {walker next : Walker}

theorem walk_kept {tree : Tree} (json : tree.IsJson) (awaits : walker.Awaits plan.mode .keep)
    {tokens : List Token} (spelled : tokens.map (·.kind) = tree.kinds) :
    walker.walk plan (Window.whole source) tokens = (walker.complete (some tree.whole), none) := by
  have walked : walker.walk plan (Window.whole source) tokens = _ :=
    walks_keep json walker "" tokens awaits spelled
  rw [Treatment.parts, pass_nil, Treatment.value?] at walked
  exact walked

theorem Visits.single (leaf : Part) (awaits : walker.Awaits plan.mode .keep)
    (field : walker.AwaitsLeaf leaf.key) (json : leaf.tree.IsJson)
    (spelled : leaf.tokens.map (·.kind) = leaf.tree.kinds) :
    Visits plan source walker leaf.tokens [leaf] := by
  have visits : Visits plan source walker ([] ++ (leaf.tokens ++ [])) [leaf] :=
    .cons (walk_nil ..) awaits field json spelled (.nil _ _)
  rw [List.nil_append, List.append_nil] at visits
  exact visits

theorem Visits.behind {lead tokens : List Token} {leaves : List Part}
    (walked : walker.walk plan (Window.whole source) lead = (next, none))
    (visits : Visits plan source next tokens leaves) :
    Visits plan source walker (lead ++ tokens) leaves := by
  cases visits with
  | nil => exact .nil walker _
  | cons walkedFront awaits field json spelled behind =>
      rw [← List.append_assoc]
      refine .cons ?_ awaits field json spelled behind
      rw [walk_append_ok walked, walkedFront]

theorem Visits.append {first second : List Token} {leaves more : List Part}
    (visits : Visits plan source walker first leaves)
    (walked : walker.walk plan (Window.whole source) first = (next, none))
    (further : Visits plan source next second more) :
    Visits plan source walker (first ++ second) (leaves ++ more) := by
  induction visits with
  | nil walker tokens => exact further.behind walked
  | cons walkedFront awaits field json spelled _ ih =>
      rw [walk_append_ok walkedFront, walk_append_ok (walk_kept json awaits spelled)] at walked
      rw [List.append_assoc, List.append_assoc]
      exact .cons walkedFront awaits field json spelled (ih walked)

theorem Visits.mem_field {tokens : List Token} {leaves : List Part}
    (visits : Visits plan source walker tokens leaves) {leaf : Part} (member : leaf ∈ leaves) :
    ∃ front back middle, tokens = front ++ (leaf.tokens ++ back) ∧
      walker.walk plan (Window.whole source) front = (middle, none) ∧
      middle.Awaits plan.mode .keep ∧ leaf.tree.IsJson ∧
      leaf.tokens.map (·.kind) = leaf.tree.kinds ∧ middle.AwaitsLeaf leaf.key := by
  induction visits with
  | nil => cases member
  | @cons walker middle front back own rest walked awaits field json spelled _ ih =>
      rcases List.mem_cons.mp member with rfl | behind
      · exact ⟨front, back, middle, rfl, walked, awaits, json, spelled, field⟩
      · obtain ⟨lead, others, last, rfl, further, atLeaf⟩ := ih behind
        refine ⟨front ++ (own.tokens ++ lead), others, last, ?_, ?_, atLeaf⟩
        · simp only [List.append_assoc]
        · rw [walk_append_ok walked, walk_append_ok (walk_kept json awaits spelled), further]

theorem Visits.mem {tokens : List Token} {leaves : List Part}
    (visits : Visits plan source walker tokens leaves) {leaf : Part} (member : leaf ∈ leaves) :
    ∃ front back middle, tokens = front ++ (leaf.tokens ++ back) ∧
      walker.walk plan (Window.whole source) front = (middle, none) ∧
      middle.Awaits plan.mode .keep ∧ leaf.tree.IsJson ∧
      leaf.tokens.map (·.kind) = leaf.tree.kinds := by
  obtain ⟨front, back, middle, split, walked, awaits, json, spelled, -⟩ := visits.mem_field member
  exact ⟨front, back, middle, split, walked, awaits, json, spelled⟩

theorem Visits.ordered {tokens : List Token} {leaves : List Part}
    (visits : Visits plan source walker tokens leaves) {first last : Nat}
    (chain : Token.Chain first tokens last) :
    leaves.Pairwise (fun left right => left.span.stop ≤ right.span.start) ∧
      ∀ leaf ∈ leaves, first ≤ leaf.span.start ∧ leaf.span.start < leaf.span.stop ∧
        leaf.span.stop ≤ last := by
  induction visits generalizing first with
  | nil => exact ⟨List.Pairwise.nil, fun leaf member => absurd member List.not_mem_nil⟩
  | @cons walker middle front back own rest walked awaits field json spelled _ ih =>
      obtain ⟨start, before, further⟩ := chain.split
      obtain ⟨stop, inside, behind⟩ := further.split
      obtain ⟨apart, bounds⟩ := ih behind
      have some : own.tokens ≠ [] := fun empty => json.kinds_ne_nil (by rw [← spelled, empty]; rfl)
      have covered : start ≤ own.span.start ∧ own.span.start < own.span.stop ∧
          own.span.stop ≤ stop := inside.cover some
      have least := before.le
      have most := behind.le
      refine ⟨List.pairwise_cons.mpr ⟨fun leaf member => ?_, apart⟩,
        List.forall_mem_cons.mpr ⟨by omega, fun leaf member => ?_⟩⟩
      · have later := (bounds leaf member).1
        omega
      · have later := bounds leaf member
        omega

end Walker

def Walk.Treatment.leaves (treatment : Treatment) (key : String) (tree : Tree)
    (tokens : List Token) : List Part :=
  match treatment with
  | .keep => [⟨key, true, tokens, tree⟩]
  | .project group => tree.leaves group tokens
  | _ => []

/-- Walking along the tokens of a tree, where a value is treated so, comes by its leaves. -/
def ComesBy (plan : Plan) (source : Bytes) (treatment : Treatment) (tree : Tree) : Prop :=
  ∀ (walker : Walker) (key : String) (tokens : List Token),
    walker.Awaits plan.mode treatment →
    (treatment = .keep → walker.AwaitsLeaf key) → tokens.map (·.kind) = tree.kinds →
    walker.Visits plan source tokens (treatment.leaves key tree tokens)

variable {plan : Plan} {source : Bytes} {group : Group}

theorem comesBy_items {items : List Tree}
    (each : ∀ item ∈ items, Walks plan source (.project group) item)
    (leaves : ∀ item ∈ items, ComesBy plan source (.project group) item) (first : Bool)
    (walker : Walker) (free : walker.Free) (building : Building)
    {tokens : List Token} (spelled : tokens.map (·.kind) = Tree.itemKinds first items) :
    Walker.Visits plan source
      (walker.inside ⟨.array, some group, if first then .item true else .separator, building⟩)
      tokens ((Tree.itemParts group items (tokens.drop (separator first).length)).filter
        (·.selected)) := by
  induction items generalizing first walker building tokens with
  | nil => exact .nil _ _
  | cons item rest ih =>
      rw [Tree.itemKinds] at spelled
      obtain ⟨lead, others, rfl, leadSpelled, othersSpelled⟩ :=
        List.map_eq_append_iff.mp spelled
      obtain ⟨own, behind, rfl, ownSpelled, behindSpelled⟩ :=
        List.map_eq_append_iff.mp othersSpelled
      have awaits : (walker.inside ⟨.array, some group, .item first, building⟩).Awaits
          plan.mode (.project group) :=
        ⟨⟨free.skip, free.raw⟩, _, _, rfl, rfl, Or.inr ⟨first, rfl⟩⟩
      have walked := each item List.mem_cons_self _ "" own awaits ownSpelled
      have inItem := leaves item List.mem_cons_self _ "" own awaits (fun keep => by cases keep)
        ownSpelled
      rw [Walker.inside_pass, Walker.complete_inside, Frame.accept_item] at walked
      have further := ih (fun other member => each other (List.mem_cons_of_mem item member))
        (fun other member => leaves other (List.mem_cons_of_mem item member)) false
        ((walker.pass plan.mode source (Treatment.parts (.project group) "" item own)).deliverAll
          (building.emits (Treatment.value? (.project group) plan.mode item)))
        ⟨free.skip, free.raw⟩
        (building.item (Treatment.value? (.project group) plan.mode item)) behindSpelled
      have split : Tree.itemParts group (item :: rest) (own ++ behind) =
          item.parts group own ++ Tree.itemParts group rest (behind.drop 1) :=
        itemParts_cons (some group) "" item rest ownSpelled
      rw [drop_separator leadSpelled, split, List.filter_append]
      exact (inItem.append walked further).behind
        (walk_toItem (some group) first free building leadSpelled)

theorem memberLeaves_cons (builds : plan.mode = .materialize) (name : String) (value : Tree)
    (rest : List (String × Tree)) (key colon : Token) {own behind : List Token}
    (spelled : own.map (·.kind) = value.kinds) :
    (Tree.memberParts group ((name, value) :: rest) (key :: colon :: (own ++ behind))).filter
        (·.selected) =
      (group.treatment plan.mode name).leaves name value own ++
        (Tree.memberParts group rest (behind.drop 1)).filter (·.selected) := by
  have length : value.kinds.length = own.length := by
    rw [← spelled, List.length_map]
  simp only [Tree.memberParts, Group.treatment, length, List.drop_succ_cons, List.drop_zero,
    List.take_left, List.drop_length_add_append, List.filter_append, builds]
  congr 1
  cases group.get? name with
  | none => rfl
  | some selection => cases selection <;> rfl

theorem Group.lookup_of_keep {mode : EmitMode} {name : String}
    (keeps : group.treatment mode name = .keep) :
    ∃ index, group.lookup name = some (index, .leaf) := by
  unfold Group.treatment Group.get? at keeps
  cases found : group.lookup name with
  | none =>
      rw [found] at keeps
      cases keeps
  | some field =>
      rcases field with ⟨index, _ | child⟩
      · exact ⟨index, rfl⟩
      · rw [found] at keeps
        cases mode <;> cases keeps

theorem comesBy_members (builds : plan.mode = .materialize) {members : List (String × Tree)}
    (each : ∀ member ∈ members,
      Walks plan source (group.treatment plan.mode member.1) member.2)
    (leaves : ∀ member ∈ members,
      ComesBy plan source (group.treatment plan.mode member.1) member.2) (first : Bool)
    (walker : Walker) (free : walker.Free) {building : Building}
    (slots : building.HasSlots group) {tokens : List Token}
    (spelled : tokens.map (·.kind) = Tree.memberKinds first members) :
    Walker.Visits plan source
      (walker.inside ⟨.object, some group, if first then .key true else .separator, building⟩)
      tokens ((Tree.memberParts group members (tokens.drop (separator first).length)).filter
        (·.selected)) := by
  induction members generalizing first walker building tokens with
  | nil => exact .nil _ _
  | cons member rest ih =>
      rcases member with ⟨name, value⟩
      obtain ⟨lead, key, colon, own, behind, rfl, leadSpelled, keyKind, colonKind, ownSpelled,
        behindSpelled⟩ := memberKinds_split spelled
      have awaits : (walker.inside ⟨.object, some group,
          .value (Frame.key ⟨.object, some group, .key first, building⟩ name), building⟩).Awaits
            plan.mode (group.treatment plan.mode name) :=
        ⟨⟨free.skip, free.raw⟩, _, _, rfl,
          Frame.treatment_member (some group) plan.mode name building _, Or.inl ⟨_, rfl⟩⟩
      have field (keeps : group.treatment plan.mode name = .keep) :
          Walker.AwaitsLeaf (walker.inside ⟨.object, some group,
            .value (Frame.key ⟨.object, some group, .key first, building⟩ name), building⟩)
              name := by
        obtain ⟨index, found⟩ := Group.lookup_of_keep keeps
        have key : Frame.key ⟨.object, some group, .key first, building⟩ name = .field index := by
          simp only [Frame.key, found]
        exact ⟨_, _, group, index, rfl, rfl, found, congrArg Expect.value key, slots⟩
      have walked := each (name, value) List.mem_cons_self _ name own awaits ownSpelled
      have inMember := leaves (name, value) List.mem_cons_self _ name own awaits field ownSpelled
      rw [Walker.inside_pass, Walker.complete_inside] at walked
      have further := ih (fun other inside => each other (List.mem_cons_of_mem _ inside))
        (fun other inside => leaves other (List.mem_cons_of_mem _ inside)) false
        ((walker.pass plan.mode source
          ((group.treatment plan.mode name).parts name value own)).deliverAll
            (building.emits ((group.treatment plan.mode name).value? plan.mode value)))
        ⟨free.skip, free.raw⟩
        (slots.member name ((group.treatment plan.mode name).value? plan.mode value)) behindSpelled
      have split : ((lead ++ [key, colon]) ++ (own ++ behind)).drop (separator first).length =
          key :: colon :: (own ++ behind) := by
        rw [List.append_assoc, drop_separator leadSpelled]
        rfl
      rw [split, memberLeaves_cons builds name value rest key colon ownSpelled]
      exact (inMember.append walked further).behind
        (walk_toValue (some group) first free building name leadSpelled keyKind colonKind)

theorem Walker.projected_hasSlots (walker : Walker) {mode : EmitMode}
    (builds : mode = .materialize) (group : Group) :
    (walker.projected mode .object group).HasSlots group := by
  rw [builds]
  exact ⟨_, rfl, List.length_replicate⟩

theorem comesBy_fits (builds : plan.mode = .materialize) {treatment : Treatment} {tree : Tree}
    (fits : tree.Fits plan.mode treatment)
    (distinct : ∀ group, treatment = .project group → group.Distinct) :
    ComesBy plan source treatment tree := by
  induction fits with
  | skip passable => exact fun walker key tokens _ _ _ => .nil walker tokens
  | capture name raw passable => exact fun walker key tokens _ _ _ => .nil walker tokens
  | @keep tree json =>
      intro walker key tokens awaits field spelled
      exact Walker.Visits.single ⟨key, true, tokens, tree⟩ awaits (field rfl) json spelled
  | scalar group own => exact fun walker key tokens _ _ _ => .nil walker tokens
  | @array group items inner ih =>
      intro walker key tokens awaits _ spelled
      obtain ⟨token, others, rfl, kind, othersSpelled⟩ := List.map_eq_cons_iff.mp spelled
      have opens := opens?_openArray kind
      have pushed := Walker.push_container (Window.whole source) awaits opens
      have lead : walker.walk plan (Window.whole source) [token] = (_, none) :=
        Walker.walk_cons_ok pushed []
      exact (comesBy_items (fun item member => walks_fits (inner item member) distinct)
        (fun item member => ih item member distinct) true walker awaits.1 _
        othersSpelled).behind lead
  | @object group members inner ih =>
      intro walker key tokens awaits _ spelled
      obtain ⟨token, others, rfl, kind, othersSpelled⟩ := List.map_eq_cons_iff.mp spelled
      have opens := opens?_openObject kind
      have pushed := Walker.push_container (Window.whole source) awaits opens
      have lead : walker.walk plan (Window.whole source) [token] = (_, none) :=
        Walker.walk_cons_ok pushed []
      have nested {name : String} {child : Group}
          (treated : group.treatment plan.mode name = .project child) : child.Distinct :=
        (distinct group rfl).treatment treated
      exact (comesBy_members builds
        (fun member inside => walks_fits (inner member inside) fun child => nested)
        (fun member inside => ih member inside fun child => nested) true walker awaits.1
        (walker.projected_hasSlots builds group) othersSpelled).behind lead

theorem Walker.visits_root (builds : plan.mode = .materialize) {tree : Tree}
    (fits : tree.Fits plan.mode (.project plan.group)) (distinct : plan.group.Distinct)
    {walker : Walker} (awaits : walker.AwaitsRoot) {tokens : List Token}
    (spelled : tokens.map (·.kind) = tree.kinds) :
    walker.Visits plan source tokens (tree.leaves plan.group tokens) := by
  cases fits with
  | scalar _ own => exact .nil walker tokens
  | @array _ items inner =>
      obtain ⟨token, others, rfl, kind, othersSpelled⟩ := List.map_eq_cons_iff.mp spelled
      have pushed := Walker.push_rootContainer plan (Window.whole source) awaits
        (opens?_openArray kind)
      have lead : walker.walk plan (Window.whole source) [token] = (_, none) :=
        Walker.walk_cons_ok pushed []
      have own {group : Group} (same : Treatment.project plan.group = .project group) :
          group.Distinct := by
        cases same
        exact distinct
      exact (comesBy_items (fun item member => walks_fits (inner item member) fun group => own)
        (fun item member => comesBy_fits builds (inner item member) fun group => own) true
        { walker with shape := some RootShape.array } ⟨awaits.free.skip, awaits.free.raw⟩ _
        othersSpelled).behind lead
  | @object _ members inner =>
      obtain ⟨token, others, rfl, kind, othersSpelled⟩ := List.map_eq_cons_iff.mp spelled
      have pushed := Walker.push_rootContainer plan (Window.whole source) awaits
        (opens?_openObject kind)
      have lead : walker.walk plan (Window.whole source) [token] = (_, none) :=
        Walker.walk_cons_ok pushed []
      have nested {name : String} {child : Group}
          (treated : plan.group.treatment plan.mode name = .project child) : child.Distinct :=
        distinct.treatment treated
      exact (comesBy_members builds
        (fun member inside => walks_fits (inner member inside) fun child => nested)
        (fun member inside => comesBy_fits builds (inner member inside) fun child => nested) true
        { walker with shape := some RootShape.single } ⟨awaits.free.skip, awaits.free.raw⟩
        (walker.projected_hasSlots builds plan.group) othersSpelled).behind lead

end JsonProjection
