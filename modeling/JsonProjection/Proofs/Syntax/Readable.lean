import JsonProjection.Proofs.Number.Printed
import JsonProjection.Proofs.Syntax.Narrow

/-!
The values that reading can give, as trees.

Such a value is made up of scalars that a source can spell, and none of its objects repeats a key.
In its own tree nothing of it is lost: all of the tree is the value again, and projecting the tree
leaves out of the value what is not asked for. So what has been projected is not changed by
projecting it once more.
-/

namespace JsonProjection

open Json Json.Members

/-! ### Keys that are not repeated -/

namespace Json.Members

theorem mem_of_last? {key : String} {members : List (String × Value)} {value : Value}
    (found : last? key members = some value) : (key, value) ∈ members := by
  induction members with
  | nil => cases found
  | cons member rest ih =>
      rw [last?] at found
      cases behind : last? key rest with
      | some own =>
          rw [behind, Option.some_or] at found
          cases found
          exact List.mem_cons_of_mem member (ih behind)
      | none =>
          rw [behind, Option.none_or] at found
          split at found
          · rename_i same
            cases found
            rw [← same]
            exact List.mem_cons_self
          · cases found

theorem mem_of_merge {members : List (String × Value)} :
    ∀ member ∈ merge members, member ∈ members := by
  induction members with
  | nil => exact fun member inside => inside
  | cons first rest ih =>
      obtain ⟨key, value⟩ := first
      refine List.forall_mem_cons.mpr ⟨?_, fun member inside =>
        List.mem_cons_of_mem _ (ih member (List.mem_filter.mp inside).1)⟩
      cases found : last? key rest with
      | none => exact List.mem_cons_self
      | some own => exact List.mem_cons_of_mem _ (mem_of_last? found)

theorem merge_nodup (members : List (String × Value)) :
    ((merge members).map Prod.fst).Nodup := by
  induction members with
  | nil => exact List.nodup_nil
  | cons first rest ih =>
      refine List.nodup_cons.mpr ⟨fun inside => ?_, (List.filter_sublist.map Prod.fst).nodup ih⟩
      obtain ⟨member, kept, same⟩ := List.mem_map.mp inside
      exact of_decide_eq_true (List.mem_filter.mp kept).2 same

theorem merge_of_nodup {members : List (String × Value)}
    (nodup : (members.map Prod.fst).Nodup) : merge members = members := by
  induction members with
  | nil => rfl
  | cons first rest ih =>
      obtain ⟨fresh, others⟩ := List.nodup_cons.mp nodup
      have kept : rest.filter (fun member => member.1 ≠ first.1) = rest :=
        List.filter_eq_self.mpr fun member inside => decide_eq_true fun same =>
          fresh (same ▸ List.mem_map_of_mem inside)
      rw [merge, ih others, last?_eq_none fresh, kept]
      rfl

end Json.Members

namespace Group

variable {group : Group}

theorem mem_of_arrange {members : List (String × Value)} :
    ∀ member ∈ group.arrange members, member ∈ members := by
  intro member inside
  obtain ⟨field, -, gives⟩ := List.mem_filterMap.mp inside
  obtain ⟨value, found, rfl⟩ := Option.map_eq_some_iff.mp gives
  exact mem_of_last? found

theorem arrange_nodup (nodup : group.names.Nodup) (members : List (String × Value)) :
    ((group.arrange members).map Prod.fst).Nodup := by
  have keys : ((group.arrange members).map Prod.fst).Sublist group.names := by
    unfold arrange names
    induction group.fields with
    | nil => exact List.Sublist.refl []
    | cons field rest ih =>
        rw [List.filterMap_cons]
        cases last? field.1 members with
        | none => exact ih.cons field.1
        | some value => exact ih.cons_cons field.1
  exact keys.nodup nodup

end Group

/-! ### Values that reading gives -/

/-- Scalars that a source can spell, and containers of such values in which no key is repeated. -/
inductive Json.Value.Readable : Value → Prop where
  | scalar {own : Bytes} {scalar : Scalar} (spells : Spells own scalar.kind) :
      Readable scalar.value
  | array {items : List Value} (inner : ∀ item ∈ items, Readable item) : Readable (.array items)
  | object {members : List (String × Value)} (nodup : (members.map Prod.fst).Nodup)
      (inner : ∀ member ∈ members, Readable member.2) : Readable (.object members)

theorem Json.Value.Readable.null : Readable .null :=
  @Readable.scalar _ ⟨.null, .null, rfl⟩ (Spells.literal .null)

def Spellable (kinds : List Token.Kind) : Prop :=
  ∀ kind ∈ kinds, ∃ own, Spells own kind

theorem Layout.spellable {place : Nat} {bytes : Bytes} {tokens : List Token}
    (layout : Layout place bytes tokens) : Spellable (tokens.map (·.kind)) := by
  induction layout with
  | nil place => exact fun kind member => absurd member List.not_mem_nil
  | ignored _ _ ih => exact ih
  | token spells _ _ ih => exact List.forall_mem_cons.mpr ⟨⟨_, spells⟩, ih⟩

namespace Tree

theorem spellable_items {items : List Tree} {first : Bool}
    (spellable : Spellable (itemKinds first items)) : ∀ item ∈ items, Spellable item.kinds := by
  induction items generalizing first with
  | nil => exact fun item member => absurd member List.not_mem_nil
  | cons item rest ih =>
      obtain ⟨-, behind⟩ := List.forall_mem_append.mp spellable
      obtain ⟨own, others⟩ := List.forall_mem_append.mp behind
      exact List.forall_mem_cons.mpr ⟨own, ih others⟩

theorem spellable_members {members : List (String × Tree)} {first : Bool}
    (spellable : Spellable (memberKinds first members)) :
    ∀ member ∈ members, Spellable member.2.kinds := by
  induction members generalizing first with
  | nil => exact fun member inside => absurd inside List.not_mem_nil
  | cons member rest ih =>
      obtain ⟨-, behind⟩ := List.forall_mem_append.mp spellable
      obtain ⟨own, others⟩ := List.forall_mem_append.mp
        (List.forall_mem_cons.mp (List.forall_mem_cons.mp behind).2).2
      exact List.forall_mem_cons.mpr ⟨own, ih others⟩

mutual

theorem whole_readable (tree : Tree) (spellable : Spellable tree.kinds) :
    tree.whole.Readable := by
  cases tree with
  | scalar own =>
      obtain ⟨bytes, spells⟩ := spellable own.kind List.mem_cons_self
      exact .scalar spells
  | stretch kinds => exact .null
  | array items =>
      have each := spellable_items (List.forall_mem_cons.mp spellable).2
      exact .array (wholeItems_readable items each)
  | object members =>
      have each := spellable_members (List.forall_mem_cons.mp spellable).2
      exact .object (merge_nodup _) fun member inside =>
        wholeMembers_readable members each member (mem_of_merge member inside)

theorem wholeItems_readable (items : List Tree) (each : ∀ item ∈ items, Spellable item.kinds) :
    ∀ value ∈ wholeItems items, value.Readable := by
  cases items with
  | nil => exact fun value member => absurd member List.not_mem_nil
  | cons item rest =>
      obtain ⟨own, others⟩ := List.forall_mem_cons.mp each
      exact List.forall_mem_cons.mpr ⟨whole_readable item own, wholeItems_readable rest others⟩

theorem wholeMembers_readable (members : List (String × Tree))
    (each : ∀ member ∈ members, Spellable member.2.kinds) :
    ∀ member ∈ wholeMembers members, member.2.Readable := by
  cases members with
  | nil => exact fun member inside => absurd inside List.not_mem_nil
  | cons member rest =>
      obtain ⟨name, value⟩ := member
      obtain ⟨own, others⟩ := List.forall_mem_cons.mp each
      exact List.forall_mem_cons.mpr ⟨whole_readable value own, wholeMembers_readable rest others⟩

end

mutual

theorem project_readable (tree : Tree) {group : Group} (distinct : group.Distinct)
    (spellable : Spellable tree.kinds) : (tree.project group).Readable := by
  cases tree with
  | scalar own =>
      obtain ⟨bytes, spells⟩ := spellable own.kind List.mem_cons_self
      exact .scalar spells
  | stretch kinds => exact .null
  | array items =>
      have each := spellable_items (List.forall_mem_cons.mp spellable).2
      exact .array (projectItems_readable items distinct each)
  | object members =>
      have each := spellable_members (List.forall_mem_cons.mp spellable).2
      exact .object (Group.arrange_nodup distinct.nodup _) fun member inside =>
        projectMembers_readable members distinct each member (Group.mem_of_arrange member inside)

theorem projectItems_readable (items : List Tree) {group : Group} (distinct : group.Distinct)
    (each : ∀ item ∈ items, Spellable item.kinds) :
    ∀ value ∈ projectItems group items, value.Readable := by
  cases items with
  | nil => exact fun value member => absurd member List.not_mem_nil
  | cons item rest =>
      obtain ⟨own, others⟩ := List.forall_mem_cons.mp each
      exact List.forall_mem_cons.mpr
        ⟨project_readable item distinct own, projectItems_readable rest distinct others⟩

theorem projectMembers_readable (members : List (String × Tree)) {group : Group}
    (distinct : group.Distinct) (each : ∀ member ∈ members, Spellable member.2.kinds) :
    ∀ member ∈ projectMembers group members, member.2.Readable := by
  cases members with
  | nil => exact fun member inside => absurd inside List.not_mem_nil
  | cons member rest =>
      obtain ⟨name, value⟩ := member
      obtain ⟨own, others⟩ := List.forall_mem_cons.mp each
      have behind := projectMembers_readable rest distinct others
      rw [projectMembers]
      cases found : group.get? name with
      | none => exact behind
      | some selection =>
          cases selection with
          | leaf => exact List.forall_mem_cons.mpr ⟨whole_readable value own, behind⟩
          | nested child =>
              have inner := distinct.child (Group.mem_of_get? found)
              exact List.forall_mem_cons.mpr ⟨project_readable value inner own, behind⟩

end

end Tree

/-! ### Trees of values -/

theorem Scalar.spells_null : Token.Kind.null.scalar? = some .null :=
  rfl

mutual

def Json.Value.tree : Value → Tree
  | .null => .scalar ⟨.null, .null, Scalar.spells_null⟩
  | .bool true => .scalar ⟨.true, .bool true, rfl⟩
  | .bool false => .scalar ⟨.false, .bool false, rfl⟩
  | .integer value =>
    .scalar ⟨.number (.ofInt value), .integer value, congrArg some (Numeral.ofNumeral_ofInt value)⟩
  | .float value => .scalar ⟨.number (.float value), .float value, rfl⟩
  | .string text => .scalar ⟨.string text, .string text, rfl⟩
  | .array items => .array (Json.Value.treeItems items)
  | .object members => .object (Json.Value.treeMembers members)

def Json.Value.treeItems : List Value → List Tree
  | [] => []
  | item :: rest => item.tree :: Json.Value.treeItems rest

def Json.Value.treeMembers : List (String × Value) → List (String × Tree)
  | [] => []
  | (name, value) :: rest => (name, value.tree) :: Json.Value.treeMembers rest

end

theorem Scalar.value_cases (scalar : Scalar) {holds : Value → Prop} (null : holds .null)
    (bool : ∀ value, holds (.bool value)) (integer : ∀ value, holds (.integer value))
    (float : ∀ value, holds (.float value)) (string : ∀ text, holds (.string text)) :
    holds scalar.value := by
  rcases scalar with ⟨kind, value, spells⟩
  cases kind with
  | string text =>
      cases spells
      exact string text
  | number numeral =>
      cases spells
      cases numeral with
      | unsigned value => exact integer value
      | signed value => exact integer value
      | float value => exact float value
  | true =>
      cases spells
      exact bool true
  | false =>
      cases spells
      exact bool false
  | null =>
      cases spells
      exact null
  | _ => cases spells

theorem Scalar.tree_value (scalar : Scalar) :
    ∃ own : Scalar, scalar.value.tree = .scalar own ∧ own.value = scalar.value := by
  refine @Scalar.value_cases scalar
    (fun value => ∃ own : Scalar, value.tree = .scalar own ∧ own.value = value)
    ⟨_, rfl, rfl⟩ (fun value => ?_) (fun _ => ⟨_, rfl, rfl⟩) (fun _ => ⟨_, rfl, rfl⟩)
    (fun _ => ⟨_, rfl, rfl⟩)
  cases value with
  | true => exact ⟨_, rfl, rfl⟩
  | false => exact ⟨_, rfl, rfl⟩

namespace Json.Value

variable {group : Group}

theorem treeItems_eq (items : List Value) : treeItems items = items.map tree := by
  induction items with
  | nil => rfl
  | cons item rest ih => rw [treeItems, ih, List.map_cons]

theorem treeMembers_eq (members : List (String × Value)) :
    treeMembers members = members.map fun member => (member.1, member.2.tree) := by
  induction members with
  | nil => rfl
  | cons member rest ih => rw [treeMembers, ih, List.map_cons]

theorem wholeItems_treeItems {items : List Value}
    (each : ∀ item ∈ items, item.tree.whole = item) :
    Tree.wholeItems (treeItems items) = items := by
  rw [Tree.wholeItems_eq, treeItems_eq, List.map_map]
  exact (List.map_congr_left each).trans (List.map_id items)

theorem wholeMembers_treeMembers {members : List (String × Value)}
    (each : ∀ member ∈ members, member.2.tree.whole = member.2) :
    Tree.wholeMembers (treeMembers members) = members := by
  induction members with
  | nil => rfl
  | cons member rest ih =>
      obtain ⟨own, others⟩ := List.forall_mem_cons.mp each
      rw [treeMembers, Tree.wholeMembers, own, ih others]

/-- The whole of the tree of a value is the value. -/
theorem Readable.whole_tree {value : Value} (readable : value.Readable) :
    value.tree.whole = value := by
  induction readable with
  | @scalar own scalar spells =>
      obtain ⟨own, tree, same⟩ := scalar.tree_value
      rw [tree, Tree.whole, same]
  | array _ ih => rw [tree, Tree.whole, wholeItems_treeItems ih]
  | object nodup _ ih => rw [tree, Tree.whole, wholeMembers_treeMembers ih, merge_of_nodup nodup]

theorem projectItems_treeItems {items : List Value}
    (each : ∀ item ∈ items, item.tree.project group = item.restrict group) :
    Tree.projectItems group (treeItems items) = restrictItems group items := by
  induction items with
  | nil => simp only [treeItems, Tree.projectItems, restrictItems]
  | cons item rest ih =>
      obtain ⟨own, others⟩ := List.forall_mem_cons.mp each
      rw [treeItems, Tree.projectItems, restrictItems, own, ih others]

theorem projectMembers_treeMembers {members : List (String × Value)}
    (readable : ∀ member ∈ members, member.2.Readable)
    (each : ∀ member ∈ members, ∀ child : Group,
      member.2.tree.project child = member.2.restrict child) :
    Tree.projectMembers group (treeMembers members) = restrictMembers group members := by
  induction members with
  | nil => simp only [treeMembers, Tree.projectMembers, restrictMembers]
  | cons member rest ih =>
      obtain ⟨name, value⟩ := member
      obtain ⟨own, others⟩ := List.forall_mem_cons.mp each
      obtain ⟨here, behind⟩ := List.forall_mem_cons.mp readable
      rw [treeMembers, Tree.projectMembers, restrictMembers, ih behind others, here.whole_tree]
      cases group.get? name with
      | none => rfl
      | some selection =>
          cases selection with
          | leaf => rfl
          | nested child => exact congrArg (fun value => (name, value) :: _) (own child)

theorem Readable.project_tree {value : Value} (readable : value.Readable) (group : Group) :
    value.tree.project group = value.restrict group := by
  induction readable generalizing group with
  | @scalar own scalar spells =>
      obtain ⟨own, tree, same⟩ := scalar.tree_value
      rw [tree, Tree.project, same, scalar.restrict_value]
  | array _ ih =>
      have each := fun item member => ih item member group
      rw [tree, Tree.project, restrict, projectItems_treeItems each]
  | object _ inner ih => rw [tree, Tree.project, restrict, projectMembers_treeMembers inner ih]

theorem Readable.tree_json {value : Value} (readable : value.Readable) : value.tree.IsJson := by
  induction readable with
  | @scalar own scalar spells =>
      obtain ⟨own, tree, -⟩ := scalar.tree_value
      rw [tree]
      exact .scalar own
  | @array items _ ih =>
      rw [tree, treeItems_eq]
      exact .array (List.forall_mem_map.mpr ih)
  | @object members _ _ ih =>
      rw [tree, treeMembers_eq]
      exact .object (List.forall_mem_map.mpr ih)

end Json.Value

theorem Tree.project_tree_project (tree : Tree) {group : Group} (distinct : group.Distinct)
    (spellable : Spellable tree.kinds) :
    (tree.project group).tree.project group = tree.project group := by
  rw [(tree.project_readable distinct spellable).project_tree,
    tree.restrict_project distinct.contained distinct]

end JsonProjection
