import JsonProjection.Proofs.Selection.Distinct
import JsonProjection.Proofs.Walk.Parts

/-!
Walking along a value builds what the selection makes of its tree.

`Walks` says so of one value. For containers it follows from the same for what they hold; the values
of a projected object fill the slots of its group, and the filled slots are the members that
`Group.arrange` picks.
-/

namespace JsonProjection

open Walk

/-! ### Frames that take values -/

namespace Walk

def Building.item (building : Building) (value? : Option Json.Value) : Building :=
  match building, value? with
  | .items latest, some value => .items (value :: latest)
  | building, _ => building

def Building.emits (building : Building) (value? : Option Json.Value) : List Match :=
  match building, value? with
  | .records, some value => [.value value]
  | _, _ => []

def Frame.member (frame : Frame) (name : String) (value? : Option Json.Value) : Frame :=
  { frame with expect := .value (frame.key name) }.accept value?

def Treatment.ofMember (group? : Option Group) (mode : EmitMode) (name : String) : Treatment :=
  match group? with
  | none => .keep
  | some group => group.treatment mode name

theorem Frame.accept_item (group? : Option Group) (orClose : Bool) (building : Building)
    (value? : Option Json.Value) :
    Frame.accept ⟨.array, group?, .item orClose, building⟩ value? =
      ⟨.array, group?, .separator, building.item value?⟩ := by
  cases building <;> cases value? <;> rfl

theorem Building.emits_item (building : Building) (value? : Option Json.Value) :
    (building.item value?).emits = building.emits := by
  cases building <;> cases value? <;> rfl

theorem Frame.member_emits (frame : Frame) (quiet : ∀ value?, frame.building.emits value? = [])
    (name : String) (value? other? : Option Json.Value) :
    (frame.member name value?).building.emits other? = [] := by
  rcases frame with ⟨container, group?, expect, building⟩
  cases building with
  | records => cases quiet (some .null)
  | nothing => rfl
  | items latest => cases value? <;> rfl
  | slots values =>
      unfold Frame.member Frame.accept
      simp only
      split <;> rfl
  | members list =>
      unfold Frame.member Frame.accept
      simp only
      split <;> rfl

theorem Frame.treatment_member (group? : Option Group) (mode : EmitMode) (name : String)
    (building : Building) (expect : Expect) :
    Frame.treatment ⟨.object, group?, .value (Frame.key ⟨.object, group?, expect, building⟩ name),
      building⟩ mode = Treatment.ofMember group? mode name := by
  cases group? with
  | none => rfl
  | some group =>
      cases found : group.lookup name with
      | none =>
          simp only [Frame.treatment, Frame.key, Treatment.ofMember, Group.treatment, Group.get?,
            found, Option.map_none]
      | some field =>
          rcases field with ⟨index, selection⟩
          simp only [Frame.treatment, Frame.key, Treatment.ofMember, Group.treatment, Group.get?,
            found, Group.lookup_fields found, Option.map_some]
          cases selection <;> cases mode <;> rfl

end Walk

namespace Walker

def inside (walker : Walker) (frame : Frame) : Walker :=
  { walker with stack := frame :: walker.stack }

theorem complete_inside (walker : Walker) (frame : Frame) (value? : Option Json.Value) :
    (walker.inside frame).complete value? =
      (walker.deliverAll (frame.building.emits value?)).inside (frame.accept value?) := by
  have stack : (walker.inside frame).stack = frame :: walker.stack := rfl
  rw [complete_of_cons stack]
  cases frame.building <;> cases value? <;> rfl

theorem inside_pass (walker : Walker) (frame : Frame) (mode : EmitMode) (source : Bytes)
    (parts : List Part) :
    (walker.inside frame).pass mode source parts = (walker.pass mode source parts).inside frame :=
  rfl

variable {plan : Plan} {window : Window} {walker : Walker} {token : Token}

theorem push_close (plan : Plan) (window : Window) (frame : Frame) (free : walker.Free)
    (closes : token.kind.closes? = some frame.container)
    (expect : (frame.container = .array ∧ frame.expect = .item true) ∨
      (frame.container = .object ∧ frame.expect = .key true) ∨ frame.expect = .separator) :
    (walker.inside frame).push plan window token = (walker.complete frame.result?, none) := by
  have closed : (walker.inside frame).close token = (walker.complete frame.result?, none) := by
    unfold close inside
    simp only [closes, if_true]
  have inner := (Token.Kind.closes_ne (by rw [closes]; rfl)).2
  have stack : (walker.inside frame).stack = frame :: walker.stack := rfl
  have passes : (walker.inside frame).skip = none := free.skip
  have idle : (walker.inside frame).raw = none := free.raw
  unfold push
  rw [if_neg inner, passes, idle]
  simp only [stack]
  unfold pushFrame
  rcases expect with ⟨container, expect⟩ | ⟨container, expect⟩ | expect
  · rw [container] at closes
    have kind : token.kind = .closeArray := by
      cases kind : token.kind <;> first | rfl | (rw [kind] at closes; cases closes)
    simp only [expect, kind, decide_true, Bool.and_self, if_true]
    exact closed
  · rw [container] at closes
    have kind : token.kind = .closeObject := by
      cases kind : token.kind <;> first | rfl | (rw [kind] at closes; cases closes)
    simp only [expect, kind, if_true]
    exact closed
  · simp only [expect]
    cases kind : token.kind with
    | closeObject => exact closed
    | closeArray => exact closed
    | _ =>
        rw [kind] at closes
        cases closes

theorem push_expect (plan : Plan) (window : Window) (frame : Frame) (expect : Expect)
    (free : walker.Free)
    (moves : (∃ orClose name, frame.expect = .key orClose ∧ token.kind = .string name ∧
        expect = .colon (frame.key name)) ∨
      (∃ key, frame.expect = .colon key ∧ token.kind = .colon ∧ expect = .value key) ∨
      (frame.expect = .separator ∧ token.kind = .comma ∧
        ((frame.container = .object ∧ expect = .key false) ∨
          (frame.container = .array ∧ expect = .item false)))) :
    (walker.inside frame).push plan window token =
      (walker.inside { frame with expect }, none) := by
  have stack : (walker.inside frame).stack = frame :: walker.stack := rfl
  have passes : (walker.inside frame).skip = none := free.skip
  have idle : (walker.inside frame).raw = none := free.raw
  unfold push
  rcases moves with ⟨orClose, name, before, kind, rfl⟩ | ⟨key, before, kind, rfl⟩ |
    ⟨before, kind, next⟩
  · simp only [kind, reduceCtorEq, if_false, passes, idle, stack, pushFrame, before]
    rfl
  · simp only [kind, reduceCtorEq, if_false, passes, idle, stack, pushFrame, before]
    rfl
  · rcases next with ⟨container, rfl⟩ | ⟨container, rfl⟩
    · simp only [kind, reduceCtorEq, if_false, passes, idle, stack, pushFrame, before, container]
      rw [← container]
      rfl
    · simp only [kind, reduceCtorEq, if_false, passes, idle, stack, pushFrame, before, container]
      rw [← container]
      rfl

end Walker

/-! ### Containers -/

def Walk.Treatment.itemParts (treatment : Treatment) (items : List Tree) (tokens : List Token) :
    List Part :=
  match treatment with
  | .project group => Tree.itemParts group items tokens
  | _ => []

def Walk.Treatment.memberParts (treatment : Treatment) (members : List (String × Tree))
    (tokens : List Token) : List Part :=
  match treatment with
  | .project group => Tree.memberParts group members tokens
  | _ => []

def Walk.Building.takeItems (mode : EmitMode) (treatment : Treatment) (building : Building)
    (items : List Tree) : Building :=
  items.foldl (fun building item => building.item (treatment.value? mode item)) building

def Walk.Frame.takeMembers (mode : EmitMode) (frame : Frame) (members : List (String × Tree)) :
    Frame :=
  members.foldl (fun frame member => Frame.member frame member.1
    ((Treatment.ofMember frame.group mode member.1).value? mode member.2)) frame

theorem Walk.Frame.takeMembers_container (mode : EmitMode) (frame : Frame)
    (members : List (String × Tree)) :
    (frame.takeMembers mode members).container = frame.container := by
  induction members generalizing frame with
  | nil => rfl
  | cons member rest ih => exact ih _

section Containers

variable {plan : Plan} {source : Bytes} {group? : Option Group}

variable (group?) in
theorem itemParts_cons (key : String) (item : Tree) (rest : List Tree) {own behind : List Token}
    (spelled : own.map (·.kind) = item.kinds) :
    (Treatment.ofGroup group?).itemParts (item :: rest) (own ++ behind) =
      (Treatment.ofGroup group?).parts key item own ++
        (Treatment.ofGroup group?).itemParts rest (behind.drop 1) := by
  have length : item.kinds.length = own.length := by
    rw [← spelled, List.length_map]
  cases group? with
  | none => rfl
  | some group =>
      simp only [Treatment.ofGroup, Treatment.itemParts, Treatment.parts, Tree.itemParts, length,
        List.take_left, List.drop_length_add_append]

variable (group?) in
theorem walk_toItem (first : Bool) {walker : Walker} (free : walker.Free)
    (building : Building) {lead : List Token} (spelled : lead.map (·.kind) = separator first) :
    (walker.inside ⟨.array, group?, if first then .item true else .separator, building⟩).walk plan
        (Window.whole source) lead =
      (walker.inside ⟨.array, group?, .item first, building⟩, none) := by
  cases first with
  | true =>
      cases List.map_eq_nil_iff.mp spelled
      exact Walker.walk_nil ..
  | false =>
      obtain ⟨comma, rfl, kind⟩ := List.map_eq_singleton_iff.mp spelled
      have pushed := Walker.push_expect plan (Window.whole source)
        ⟨.array, group?, .separator, building⟩ (.item false) free
        (Or.inr (Or.inr ⟨rfl, kind, Or.inr ⟨rfl, rfl⟩⟩))
      exact Walker.walk_cons_ok pushed []

variable (group?) in
theorem walk_insideItems {items : List Tree}
    (each : ∀ item ∈ items, Walks plan source (.ofGroup group?) item) (first : Bool)
    (walker : Walker) (free : walker.Free) (building : Building)
    (single : plan.mode = .materialize ∨ ∀ value?, building.emits value? = [])
    {tokens : List Token} (spelled : tokens.map (·.kind) = Tree.itemKinds first items) :
    ∃ front last expect, tokens = front ++ [last] ∧ last.kind = .closeArray ∧
      (expect = .item true ∨ expect = .separator) ∧
      (walker.inside ⟨.array, group?, if first then .item true else .separator, building⟩).walk
          plan (Window.whole source) front =
        (((walker.pass plan.mode source ((Treatment.ofGroup group?).itemParts items
            (tokens.drop (separator first).length))).deliverAll
          (items.flatMap fun item =>
            building.emits ((Treatment.ofGroup group?).value? plan.mode item))).inside
          ⟨.array, group?, expect, building.takeItems plan.mode (.ofGroup group?) items⟩, none) := by
  induction items generalizing first walker building tokens with
  | nil =>
      obtain ⟨token, rfl, kind⟩ := List.map_eq_singleton_iff.mp spelled
      have noParts : (Treatment.ofGroup group?).itemParts []
          ([token].drop (separator first).length) = [] := by
        cases group? <;> rfl
      refine ⟨[], token, if first then .item true else .separator, rfl, kind, ?_, ?_⟩
      · cases first
        · exact Or.inr rfl
        · exact Or.inl rfl
      · rw [Walker.walk_nil, noParts, Walker.pass_nil]
        rfl
  | cons item rest ih =>
      rw [Tree.itemKinds] at spelled
      obtain ⟨lead, others, rfl, leadSpelled, othersSpelled⟩ :=
        List.map_eq_append_iff.mp spelled
      obtain ⟨own, behind, rfl, ownSpelled, behindSpelled⟩ :=
        List.map_eq_append_iff.mp othersSpelled
      have awaits : (walker.inside ⟨.array, group?, .item first, building⟩).Awaits plan.mode
          (.ofGroup group?) := by
        refine ⟨⟨free.skip, free.raw⟩, _, _, rfl, ?_, Or.inr ⟨first, rfl⟩⟩
        cases group? <;> rfl
      have walked := each item List.mem_cons_self _ "" own awaits ownSpelled
      obtain ⟨front, last, expect, split, kind, ends, further⟩ :=
        ih (fun other member => each other (List.mem_cons_of_mem item member)) false
          ((walker.pass plan.mode source
            ((Treatment.ofGroup group?).parts "" item own)).deliverAll
              (building.emits ((Treatment.ofGroup group?).value? plan.mode item)))
          ⟨free.skip, free.raw⟩ (building.item ((Treatment.ofGroup group?).value? plan.mode item))
          (by rw [Building.emits_item]; exact single) behindSpelled
      refine ⟨lead ++ (own ++ front), last, expect, ?_, kind, ends, ?_⟩
      · rw [split, List.append_assoc, List.append_assoc]
      rw [Building.emits_item, Walker.deliverAll_pass (single.imp id fun none => none _)] at further
      rw [Walker.walk_append_ok (walk_toItem group? first free building leadSpelled),
        Walker.walk_append_ok walked, Walker.inside_pass, Walker.complete_inside,
        Frame.accept_item, drop_separator leadSpelled, itemParts_cons group? "" item rest ownSpelled,
        Walker.pass_append, List.flatMap_cons, Walker.deliverAll_append]
      exact further

variable (group?) in
theorem walk_items {items : List Tree}
    (each : ∀ item ∈ items, Walks plan source (.ofGroup group?) item) (first : Bool)
    (walker : Walker) (free : walker.Free) (building : Building)
    (single : plan.mode = .materialize ∨ ∀ value?, building.emits value? = [])
    {tokens : List Token} (spelled : tokens.map (·.kind) = Tree.itemKinds first items) :
    (walker.inside ⟨.array, group?, if first then .item true else .separator, building⟩).walk
        plan (Window.whole source) tokens =
      (((walker.pass plan.mode source ((Treatment.ofGroup group?).itemParts items
          (tokens.drop (separator first).length))).deliverAll
        (items.flatMap fun item =>
          building.emits ((Treatment.ofGroup group?).value? plan.mode item))).complete
        (Frame.result? ⟨.array, group?, .separator,
          building.takeItems plan.mode (.ofGroup group?) items⟩), none) := by
  obtain ⟨front, last, expect, split, kind, ends, walked⟩ :=
    walk_insideItems group? each first walker free building single spelled
  have closes : last.kind.closes? = some .array := by
    rw [kind]
    rfl
  have pushed (behind : Walker) (free : behind.Free) (built : Building) :
      (behind.inside ⟨.array, group?, expect, built⟩).push plan (Window.whole source) last =
        (behind.complete (Frame.result? ⟨.array, group?, expect, built⟩), none) :=
    Walker.push_close plan (Window.whole source) _ free closes
      (ends.imp (fun own => ⟨rfl, own⟩) Or.inr)
  have whole := (Walker.walk_append_ok walked [last]).trans
    (Walker.walk_cons_ok (pushed _ (by exact ⟨free.skip, free.raw⟩) _) [])
  rw [← split] at whole
  exact whole

theorem pass_memberParts (walker : Walker) (mode : EmitMode) (name : String) (value : Tree)
    (rest : List (String × Tree)) (key colon : Token) {own behind : List Token}
    (spelled : own.map (·.kind) = value.kinds) :
    walker.pass mode source ((Treatment.ofGroup group?).memberParts ((name, value) :: rest)
        (key :: colon :: (own ++ behind))) =
      (walker.pass mode source
        ((Treatment.ofMember group? mode name).parts name value own)).pass mode source
          ((Treatment.ofGroup group?).memberParts rest (behind.drop 1)) := by
  have length : value.kinds.length = own.length := by
    rw [← spelled, List.length_map]
  cases group? with
  | none =>
      simp only [Treatment.ofGroup, Treatment.memberParts, Treatment.ofMember, Treatment.parts,
        Walker.pass_nil]
  | some group =>
      simp only [Treatment.ofGroup, Treatment.memberParts, Tree.memberParts, Treatment.ofMember,
        Group.treatment, length, List.drop_succ_cons, List.drop_zero, List.take_left,
        List.drop_length_add_append, Walker.pass_append]
      congr 1
      cases group.get? name with
      | none => rfl
      | some selection => cases selection <;> cases mode <;> rfl

variable (group?) in
theorem walk_toValue (first : Bool) {walker : Walker} (free : walker.Free)
    (building : Building) (name : String) {lead : List Token} {key colon : Token}
    (spelled : lead.map (·.kind) = separator first) (named : key.kind = .string name)
    (parted : colon.kind = .colon) :
    (walker.inside ⟨.object, group?, if first then .key true else .separator, building⟩).walk plan
        (Window.whole source) (lead ++ [key, colon]) =
      (walker.inside ⟨.object, group?,
        .value (Frame.key ⟨.object, group?, .key first, building⟩ name), building⟩, none) := by
  have atKey : (walker.inside ⟨.object, group?, if first then .key true else .separator,
      building⟩).walk plan (Window.whole source) lead =
        (walker.inside ⟨.object, group?, .key first, building⟩, none) := by
    cases first with
    | true =>
        cases List.map_eq_nil_iff.mp spelled
        exact Walker.walk_nil ..
    | false =>
        obtain ⟨comma, rfl, kind⟩ := List.map_eq_singleton_iff.mp spelled
        have pushed := Walker.push_expect plan (Window.whole source)
          ⟨.object, group?, .separator, building⟩ (.key false) free
          (Or.inr (Or.inr ⟨rfl, kind, Or.inl ⟨rfl, rfl⟩⟩))
        exact Walker.walk_cons_ok pushed []
  have keyPushed := Walker.push_expect plan (Window.whole source)
    ⟨.object, group?, .key first, building⟩ _ free (Or.inl ⟨first, name, rfl, named, rfl⟩)
  have colonPushed := Walker.push_expect plan (Window.whole source)
    ⟨.object, group?, .colon (Frame.key ⟨.object, group?, .key first, building⟩ name), building⟩ _
    free (Or.inr (Or.inl ⟨_, rfl, parted, rfl⟩))
  rw [Walker.walk_append_ok atKey, Walker.walk_cons_ok keyPushed,
    Walker.walk_cons_ok colonPushed, Walker.walk_nil]

variable (group?) in
theorem walk_insideMembers {members : List (String × Tree)}
    (each : ∀ member ∈ members,
      Walks plan source (.ofMember group? plan.mode member.1) member.2) (first : Bool)
    (walker : Walker) (free : walker.Free) (building : Building)
    (quiet : ∀ value?, building.emits value? = []) {tokens : List Token}
    (spelled : tokens.map (·.kind) = Tree.memberKinds first members) :
    ∃ front last expect, tokens = front ++ [last] ∧ last.kind = .closeObject ∧
      (expect = .key true ∨ expect = .separator) ∧
      (walker.inside ⟨.object, group?, if first then .key true else .separator, building⟩).walk
          plan (Window.whole source) front =
        ((walker.pass plan.mode source ((Treatment.ofGroup group?).memberParts members
            (tokens.drop (separator first).length))).inside
          { Frame.takeMembers plan.mode ⟨.object, group?, .separator, building⟩ members with
            expect }, none) := by
  induction members generalizing first walker building tokens with
  | nil =>
      obtain ⟨token, rfl, kind⟩ := List.map_eq_singleton_iff.mp spelled
      have noParts : (Treatment.ofGroup group?).memberParts []
          ([token].drop (separator first).length) = [] := by
        cases group? <;> rfl
      refine ⟨[], token, if first then .key true else .separator, rfl, kind, ?_, ?_⟩
      · cases first
        · exact Or.inr rfl
        · exact Or.inl rfl
      · rw [Walker.walk_nil, noParts, Walker.pass_nil]
        rfl
  | cons member rest ih =>
      rcases member with ⟨name, value⟩
      obtain ⟨lead, key, colon, own, behind, rfl, leadSpelled, keyKind, colonKind, ownSpelled,
        behindSpelled⟩ := memberKinds_split spelled
      have toValue : Walker.walk plan (Window.whole source) _ _ = _ :=
        walk_toValue group? first free building name leadSpelled keyKind colonKind
      have awaits : (walker.inside ⟨.object, group?,
          .value (Frame.key ⟨.object, group?, .key first, building⟩ name), building⟩).Awaits
            plan.mode (.ofMember group? plan.mode name) :=
        ⟨⟨free.skip, free.raw⟩, _, _, rfl, Frame.treatment_member group? plan.mode name building _,
          Or.inl ⟨_, rfl⟩⟩
      have walked := each (name, value) List.mem_cons_self _ name own awaits ownSpelled
      obtain ⟨front, last, expect, split, kind, ends, further⟩ :=
        ih (fun other inside => each other (List.mem_cons_of_mem _ inside)) false
          (walker.pass plan.mode source
            ((Treatment.ofMember group? plan.mode name).parts name value own)) ⟨free.skip, free.raw⟩
          (Frame.member ⟨.object, group?, .separator, building⟩ name
            ((Treatment.ofMember group? plan.mode name).value? plan.mode value)).building
          (Frame.member_emits ⟨.object, group?, .separator, building⟩ quiet name
            ((Treatment.ofMember group? plan.mode name).value? plan.mode value))
          behindSpelled
      refine ⟨lead ++ [key, colon] ++ (own ++ front), last, expect, ?_, kind, ends, ?_⟩
      · simp only [split, List.append_assoc]
      rw [Walker.walk_append_ok toValue, Walker.walk_append_ok walked, Walker.inside_pass,
        Walker.complete_inside, quiet, Walker.deliverAll_nil, List.append_assoc,
        drop_separator leadSpelled, List.cons_append, List.singleton_append,
        pass_memberParts walker plan.mode name value rest key colon ownSpelled]
      exact further

variable (group?) in
theorem walk_members {members : List (String × Tree)}
    (each : ∀ member ∈ members,
      Walks plan source (.ofMember group? plan.mode member.1) member.2) (first : Bool)
    (walker : Walker) (free : walker.Free) (building : Building)
    (quiet : ∀ value?, building.emits value? = []) {tokens : List Token}
    (spelled : tokens.map (·.kind) = Tree.memberKinds first members) :
    (walker.inside ⟨.object, group?, if first then .key true else .separator, building⟩).walk
        plan (Window.whole source) tokens =
      ((walker.pass plan.mode source ((Treatment.ofGroup group?).memberParts members
          (tokens.drop (separator first).length))).complete
        (Frame.takeMembers plan.mode ⟨.object, group?, .separator, building⟩ members).result?,
        none) := by
  obtain ⟨front, last, expect, split, kind, ends, walked⟩ :=
    walk_insideMembers group? each first walker free building quiet spelled
  have container : (Frame.takeMembers plan.mode ⟨.object, group?, .separator, building⟩
      members).container = .object := Frame.takeMembers_container ..
  have closes : last.kind.closes? = some .object := by
    rw [kind]
    rfl
  have pushed (behind : Walker) (free : behind.Free) {frame : Frame}
      (object : frame.container = .object) :
      (behind.inside { frame with expect }).push plan (Window.whole source) last =
        (behind.complete frame.result?, none) :=
    Walker.push_close plan (Window.whole source) { frame with expect } free
      (by rw [closes, ← object]) (Or.inr (ends.imp (fun own => ⟨object, own⟩) id))
  have whole := (Walker.walk_append_ok walked [last]).trans
    (Walker.walk_cons_ok (pushed _ (by exact ⟨free.skip, free.raw⟩) container) [])
  rw [← split] at whole
  exact whole

end Containers

/-! ### What containers are built as -/

namespace Walk

theorem Building.emitted_nil {building : Building} (quiet : ∀ value?, building.emits value? = [])
    (value? : Tree → Option Json.Value) (items : List Tree) :
    (items.flatMap fun item => building.emits (value? item)) = [] :=
  List.flatMap_eq_nil_iff.mpr fun item _ => quiet (value? item)

theorem Building.takeItems_items {mode : EmitMode} {treatment : Treatment}
    {value : Tree → Json.Value} (values : ∀ item, treatment.value? mode item = some (value item))
    (items : List Tree) (latest : List Json.Value) :
    (Building.items latest).takeItems mode treatment items =
      .items ((items.map value).reverse ++ latest) := by
  induction items generalizing latest with
  | nil => rfl
  | cons item rest ih =>
      have taken : (Building.items latest).item (treatment.value? mode item) =
          .items (value item :: latest) := by
        rw [values]
        rfl
      have further := ih (value item :: latest)
      unfold Building.takeItems at further ⊢
      rw [List.foldl_cons, taken, further, List.map_cons, List.reverse_cons, List.append_assoc,
        List.singleton_append]

theorem Building.takeItems_fixed {building : Building}
    (fixed : ∀ value?, building.item value? = building) (mode : EmitMode) (treatment : Treatment)
    (items : List Tree) : building.takeItems mode treatment items = building := by
  induction items with
  | nil => rfl
  | cons item rest ih =>
      unfold Building.takeItems at ih ⊢
      rw [List.foldl_cons, fixed, ih]

theorem Frame.takeMembers_group (mode : EmitMode) (frame : Frame)
    (members : List (String × Tree)) : (frame.takeMembers mode members).group = frame.group := by
  induction members generalizing frame with
  | nil => rfl
  | cons member rest ih => exact ih _

theorem Frame.takeMembers_kept (mode : EmitMode) (expect : Expect)
    (list : List (String × Json.Value)) (members : List (String × Tree)) :
    (Frame.takeMembers mode ⟨.object, none, expect, .members list⟩ members).building =
      .members (Json.Members.putAll list (Tree.wholeMembers members)) := by
  induction members generalizing expect list with
  | nil => rfl
  | cons member rest ih =>
      exact ih .separator (Json.Members.put list member.1 member.2.whole)

theorem Frame.takeMembers_nothing (mode : EmitMode) (group? : Option Group) (expect : Expect)
    (members : List (String × Tree)) :
    (Frame.takeMembers mode ⟨.object, group?, expect, .nothing⟩ members).building = .nothing := by
  induction members generalizing expect with
  | nil => rfl
  | cons member rest ih => exact ih .separator

/-- The slots of a group behind some members: the last value of every field. -/
def slotsOf (group : Group) (members : List (String × Json.Value)) : List (Option Json.Value) :=
  group.fields.map fun field => Json.Members.last? field.1 members

theorem slotsOf_nil (group : Group) : slotsOf group [] = List.replicate group.size none := by
  unfold slotsOf Group.size
  exact List.map_const' ..

theorem slotsOf_set {group : Group} (nodup : group.names.Nodup) {name : String} {index : Nat}
    {selection : Selection} (found : group.lookup name = some (index, selection))
    (members : List (String × Json.Value)) (value : Json.Value) :
    (slotsOf group members).set index (some value) = slotsOf group (members ++ [(name, value)]) := by
  have field := Group.lookup_fields found
  apply List.ext_getElem?
  intro place
  rw [List.getElem?_set, slotsOf, slotsOf, List.length_map, List.getElem?_map, List.getElem?_map]
  by_cases here : index = place
  · subst here
    have inside := (List.getElem?_eq_some_iff.mp field).1
    rw [if_pos rfl, if_pos inside, field, Option.map_some, Json.Members.last?_append,
      Json.Members.last?_singleton, if_pos rfl]
    rfl
  · rw [if_neg here]
    cases other : group.fields[place]? with
    | none => rfl
    | some another =>
        have different : name ≠ another.1 := by
          intro same
          have there := Group.lookup_of_fields nodup other
          rw [← same, found] at there
          cases there
          exact here rfl
        rw [Option.map_some, Option.map_some, Json.Members.last?_append,
          Json.Members.last?_singleton, if_neg different, Option.none_or]

theorem Frame.takeMembers_slots {group : Group} (nodup : group.names.Nodup) (expect : Expect)
    (before : List (String × Json.Value)) (members : List (String × Tree)) :
    (Frame.takeMembers .materialize ⟨.object, some group, expect, .slots (slotsOf group before)⟩
        members).building =
      .slots (slotsOf group (before ++ Tree.projectMembers group members)) := by
  induction members generalizing expect before with
  | nil => rw [Tree.projectMembers, List.append_nil]; rfl
  | cons member rest ih =>
      rcases member with ⟨name, value⟩
      cases found : group.lookup name with
      | none =>
          have absent : group.get? name = none := by
            rw [Group.get?, found]
            rfl
          have taken : Frame.member ⟨.object, some group, expect, .slots (slotsOf group before)⟩
              name ((Treatment.ofMember (some group) .materialize name).value? .materialize value) =
              ⟨.object, some group, .separator, .slots (slotsOf group before)⟩ := by
            simp only [Frame.member, Frame.key, found, Treatment.ofMember, Group.treatment, absent,
              Treatment.value?, Frame.accept]
          have further := ih .separator before
          unfold Frame.takeMembers at further ⊢
          rw [List.foldl_cons, taken, further]
          simp only [Tree.projectMembers, absent]
      | some field =>
          rcases field with ⟨index, selection⟩
          have present : group.get? name = some selection := by
            rw [Group.get?, found]
            rfl
          -- The value of the member, whatever is wanted of it.
          obtain ⟨built, valued, projected⟩ : ∃ built,
              (Treatment.ofMember (some group) .materialize name).value? .materialize value =
                some built ∧
              Tree.projectMembers group ((name, value) :: rest) =
                (name, built) :: Tree.projectMembers group rest := by
            simp only [Treatment.ofMember, Group.treatment, present, Tree.projectMembers]
            cases selection with
            | leaf => exact ⟨value.whole, rfl, rfl⟩
            | nested child => exact ⟨value.project child, rfl, rfl⟩
          have taken : Frame.member ⟨.object, some group, expect, .slots (slotsOf group before)⟩
              name ((Treatment.ofMember (some group) .materialize name).value? .materialize value) =
              ⟨.object, some group, .separator,
                .slots (slotsOf group (before ++ [(name, built)]))⟩ := by
            rw [valued, ← slotsOf_set nodup found]
            simp only [Frame.member, Frame.key, found, Frame.accept]
          have further := ih .separator (before ++ [(name, built)])
          unfold Frame.takeMembers at further ⊢
          rw [List.foldl_cons, taken, further, projected, List.append_assoc,
            List.singleton_append]

theorem filledSlots_slotsOf (group : Group) (members : List (String × Json.Value)) :
    filledSlots group (slotsOf group members) = group.arrange members := by
  unfold filledSlots slotsOf Group.arrange
  induction group.fields with
  | nil => rfl
  | cons field rest ih =>
      rw [List.map_cons, List.zip_cons_cons, List.filterMap_cons, List.filterMap_cons, ih]

end Walk

end JsonProjection
