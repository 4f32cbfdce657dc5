import JsonProjection.Proofs.Selection.Contained
import JsonProjection.Proofs.Syntax.Project
import Mathlib.Data.List.Basic

/-!
What a smaller selection makes of a tree.

A tree that fits a group fits every group that is contained in it, for what is not looked into has
only to count up. Projecting to the smaller group is projecting to the larger one and restricting
the result, and the leaves of the smaller group are those of the larger one at its own places.
-/

namespace JsonProjection

open Walk

/-! ### What fits can be passed over -/

theorem Closes.append {depth : Nat} {kinds : List Token.Kind} (closes : Closes depth kinds)
    {outer : Nat} {rest : List Token.Kind} (behind : Closes (outer + 1) rest) :
    Closes (depth + outer + 1) (kinds ++ rest) := by
  induction closes with
  | last closing =>
      rw [Nat.add_comm 1 outer]
      exact .closes closing behind
  | @opens depth _ _ opening _ ih =>
      rw [Nat.add_right_comm depth 1 outer] at ih
      exact .opens opening ih
  | @closes depth _ _ closing _ ih =>
      rw [Nat.add_right_comm depth 1 outer] at ih
      rw [Nat.add_right_comm depth 2 outer]
      exact .closes closing ih
  | other noOpening noClosing inner _ ih => exact .other noOpening noClosing inner ih

theorem Passable.balanced {kinds : List Token.Kind} (passable : Passable kinds) :
    Balanced kinds := by
  intro depth rest behind
  cases passable with
  | @scalar kind scalar =>
      obtain ⟨value, spells⟩ := Option.isSome_iff_exists.mp scalar
      obtain ⟨noOpening, noClosing, inner⟩ := Scalar.other ⟨kind, value, spells⟩
      exact .other noOpening noClosing inner behind
  | stretch opens closes =>
      have inside := closes.append behind
      rw [Nat.add_comm 1 depth] at inside
      exact .opens opens inside

namespace Tree

theorem Fits.passable {mode : EmitMode} {treatment : Treatment} {tree : Tree}
    (fits : tree.Fits mode treatment) : Passable tree.kinds := by
  induction fits with
  | skip passable => exact passable
  | capture name raw passable => exact passable
  | keep json => exact json.passable
  | scalar group own => exact (IsJson.scalar own).passable
  | array _ ih =>
      have closes := closes_items (fun item member => (ih item member).balanced) true
        (Closes.last rfl : Closes 1 [.closeArray])
      rw [List.append_nil] at closes
      exact .stretch rfl closes
  | object _ ih =>
      have closes := closes_members (fun member inside => (ih member inside).balanced) true
        (Closes.last rfl : Closes 1 [.closeObject])
      rw [List.append_nil] at closes
      exact .stretch rfl closes

theorem Fits.narrow {mode : EmitMode} {small large : Group} {tree : Tree}
    (fits : tree.Fits mode (.project large)) (contained : small.Contained large) :
    tree.Fits mode (.project small) := by
  generalize treated : Treatment.project large = treatment at fits
  induction fits generalizing small large with
  | skip passable => cases treated
  | capture name raw passable => cases treated
  | keep json => cases treated
  | scalar group own => exact .scalar small own
  | array _ ih => exact .array fun item member => ih item member contained treated
  | @object group members inner ih =>
      cases treated
      refine .object fun member inside => ?_
      have own := inner member inside
      unfold Group.treatment at own ⊢
      cases found : small.get? member.1 with
      | none => exact .skip own.passable
      | some selection =>
          cases selection with
          | leaf =>
              rw [contained.leaf found] at own
              exact own
          | nested child =>
              obtain ⟨other, there, within⟩ := contained.nested found
              refine ih member inside within ?_
              simp only [Group.treatment, there]

end Tree

/-! ### Values -/

mutual

/-- What a group asks of a value, where some of it may have been left out already. -/
def Json.Value.restrict (group : Group) : Json.Value → Json.Value
  | .array items => .array (Json.Value.restrictItems group items)
  | .object members => .object (group.arrange (Json.Value.restrictMembers group members))
  | .null => .null
  | .bool value => .bool value
  | .integer value => .integer value
  | .float value => .float value
  | .string text => .string text

def Json.Value.restrictItems (group : Group) : List Json.Value → List Json.Value
  | [] => []
  | item :: rest => item.restrict group :: Json.Value.restrictItems group rest

def Json.Value.restrictMembers (group : Group) :
    List (String × Json.Value) → List (String × Json.Value)
  | [] => []
  | (name, value) :: rest =>
    match group.get? name with
    | none => Json.Value.restrictMembers group rest
    | some .leaf => (name, value) :: Json.Value.restrictMembers group rest
    | some (.nested child) => (name, value.restrict child) :: Json.Value.restrictMembers group rest

end

def Selection.restrict : Selection → Json.Value → Json.Value
  | .leaf, value => value
  | .nested child, value => value.restrict child

theorem Scalar.restrict_value (scalar : Scalar) (group : Group) :
    scalar.value.restrict group = scalar.value := by
  rcases scalar with ⟨kind, value, spells⟩
  cases kind with
  | string text =>
      cases spells
      simp only [Json.Value.restrict]
  | number numeral =>
      cases spells
      cases numeral <;> simp only [Json.Value.ofNumeral, Json.Value.restrict]
  | true =>
      cases spells
      simp only [Json.Value.restrict]
  | false =>
      cases spells
      simp only [Json.Value.restrict]
  | null =>
      cases spells
      simp only [Json.Value.restrict]
  | _ => cases spells

section Members

open Json Json.Members

theorem last?_restrictMembers {group : Group} {name : String} {selection : Selection}
    (found : group.get? name = some selection) (members : List (String × Value)) :
    last? name (Value.restrictMembers group members) =
      (last? name members).map selection.restrict := by
  induction members with
  | nil =>
      simp only [Value.restrictMembers]
      rfl
  | cons member rest ih =>
      rcases member with ⟨other, value⟩
      by_cases same : other = name
      · subst same
        cases selection with
        | leaf => simp only [Value.restrictMembers, found, last?, ih, if_true, Option.map_or]; rfl
        | nested child =>
            simp only [Value.restrictMembers, found, last?, ih, if_true, Option.map_or]
            rfl
      · simp only [last?, if_neg same, Option.or_none, Value.restrictMembers]
        cases group.get? other with
        | none => exact ih
        | some own => cases own <;> simp only [last?, if_neg same, Option.or_none, ih]

theorem last?_eq_none {name : String} {members : List (String × Value)}
    (absent : name ∉ members.map Prod.fst) : last? name members = none := by
  induction members with
  | nil => rfl
  | cons member rest ih =>
      obtain ⟨other, behind⟩ := List.ne_and_not_mem_of_not_mem_cons absent
      rw [last?, ih behind, if_neg (Ne.symm other), Option.none_or]

theorem last?_arrange {group : Group} (nodup : group.names.Nodup) {name : String}
    (present : name ∈ group.names) (members : List (String × Value)) :
    last? name (group.arrange members) = last? name members := by
  unfold Group.arrange
  unfold Group.names at nodup present
  generalize group.fields = fields at nodup present
  induction fields with
  | nil => cases present
  | cons field rest ih =>
      obtain ⟨fresh, others⟩ := List.nodup_cons.mp nodup
      rw [List.filterMap_cons]
      by_cases same : field.1 = name
      · -- No other field gives a member of this name.
        have absent : last? name (rest.filterMap fun field =>
            (last? field.1 members).map fun value => (field.1, value)) = none := by
          apply last?_eq_none
          intro inside
          obtain ⟨member, found, rfl⟩ := List.mem_map.mp inside
          obtain ⟨other, there, gives⟩ := List.mem_filterMap.mp found
          obtain ⟨value, _, rfl⟩ := Option.map_eq_some_iff.mp gives
          rw [same] at fresh
          exact fresh (List.mem_map_of_mem there)
        subst same
        cases last? field.1 members with
        | none => exact absent
        | some value => simp only [Option.map_some, last?, absent, if_true, Option.none_or]
      · have behind := ih others ((List.mem_cons.mp present).resolve_left (Ne.symm same))
        cases last? field.1 members with
        | none => exact behind
        | some value => simp only [Option.map_some, last?, if_neg same, Option.or_none, behind]

end Members

theorem Group.arrange_congr {group : Group} {first second : List (String × Json.Value)}
    (same : ∀ name selection, group.get? name = some selection →
      Json.Members.last? name first = Json.Members.last? name second) :
    group.arrange first = group.arrange second := by
  apply List.filterMap_congr
  intro field member
  cases found : group.get? field.1 with
  | some selection => rw [same field.1 selection found]
  | none =>
      have absent := Group.lookup_eq_none.mp (Option.map_eq_none_iff.mp found)
      exact absurd (List.mem_map_of_mem member) absent

theorem Tree.last?_cons_projectMembers (group : Group) {other name : String} (apart : other ≠ name)
    (value : Tree) (rest : List (String × Tree)) :
    Json.Members.last? name (Tree.projectMembers group ((other, value) :: rest)) =
      Json.Members.last? name (Tree.projectMembers group rest) := by
  rw [Tree.projectMembers]
  cases group.get? other with
  | none => rfl
  | some selection =>
      cases selection <;> simp only [Json.Members.last?, if_neg apart, Option.or_none]

mutual

theorem Tree.restrict_project (tree : Tree) {small large : Group}
    (contained : small.Contained large) (distinct : large.Distinct) :
    (tree.project large).restrict small = tree.project small := by
  cases tree with
  | scalar own => exact own.restrict_value small
  | stretch kinds => simp only [Tree.project, Json.Value.restrict]
  | array items =>
      simp only [Tree.project, Json.Value.restrict,
        Tree.restrict_projectItems items contained distinct]
  | object members =>
      simp only [Tree.project, Json.Value.restrict]
      congr 1
      apply Group.arrange_congr
      intro name selection found
      obtain ⟨other, there, _⟩ := contained.field found
      rw [last?_restrictMembers found,
        last?_arrange distinct.nodup (List.mem_map_of_mem (Group.mem_of_get? there)),
        Tree.last?_projectMembers members contained distinct found]

theorem Tree.restrict_projectItems (items : List Tree) {small large : Group}
    (contained : small.Contained large) (distinct : large.Distinct) :
    Json.Value.restrictItems small (Tree.projectItems large items) =
      Tree.projectItems small items := by
  cases items with
  | nil => simp only [Tree.projectItems, Json.Value.restrictItems]
  | cons item rest =>
      simp only [Tree.projectItems, Json.Value.restrictItems,
        Tree.restrict_project item contained distinct,
        Tree.restrict_projectItems rest contained distinct]

theorem Tree.last?_projectMembers (members : List (String × Tree)) {small large : Group}
    (contained : small.Contained large) (distinct : large.Distinct) {name : String}
    {selection : Selection} (found : small.get? name = some selection) :
    (Json.Members.last? name (Tree.projectMembers large members)).map selection.restrict =
      Json.Members.last? name (Tree.projectMembers small members) := by
  cases members with
  | nil => simp only [Tree.projectMembers, Json.Members.last?, Option.map_none]
  | cons member rest =>
      rcases member with ⟨other, value⟩
      have behind := Tree.last?_projectMembers rest contained distinct found
      by_cases same : other = name
      · subst same
        cases selection with
        | leaf =>
            simp only [Tree.projectMembers, found, contained.leaf found, Json.Members.last?,
              if_true, Option.map_or, behind]
            rfl
        | nested child =>
            obtain ⟨inner, there, within⟩ := contained.nested found
            simp only [Tree.projectMembers, found, there, Json.Members.last?, if_true,
              Option.map_or, behind, Option.map_some, Selection.restrict,
              Tree.restrict_project value within (distinct.child (Group.mem_of_get? there))]
      · rw [Tree.last?_cons_projectMembers large same, Tree.last?_cons_projectMembers small same]
        exact behind

end

/-! ### Leaves and their places -/

/-- A leaf in a document, and the names of the fields that lead to it. -/
structure Place where
  path : List String
  part : Part

def Place.under (name : String) (place : Place) : Place :=
  { place with path := name :: place.path }

mutual

/-- The leaves of a value with their places, in document order. `tokens` are the tokens of the
value. -/
def Tree.places (group : Group) : Tree → List Token → List Place
  | .scalar _, _ => []
  | .stretch _, _ => []
  | .array items, tokens => Tree.itemPlaces group items (tokens.drop 1)
  | .object members, tokens => Tree.memberPlaces group members (tokens.drop 1)

def Tree.itemPlaces (group : Group) : List Tree → List Token → List Place
  | [], _ => []
  | item :: rest, tokens =>
    item.places group (tokens.take item.kinds.length) ++
      Tree.itemPlaces group rest (tokens.drop (item.kinds.length + 1))

def Tree.memberPlaces (group : Group) : List (String × Tree) → List Token → List Place
  | [], _ => []
  | (name, value) :: rest, tokens =>
    let own := (tokens.drop 2).take value.kinds.length
    let here :=
      match group.get? name with
      | none => []
      | some .leaf => [⟨[name], ⟨name, true, own, value⟩⟩]
      | some (.nested child) => (value.places child own).map (Place.under name)
    here ++ Tree.memberPlaces group rest (tokens.drop (value.kinds.length + 3))

end

theorem Place.map_part_under (name : String) (places : List Place) :
    (places.map (Place.under name)).map (·.part) = places.map (·.part) := by
  rw [List.map_map]
  rfl

theorem Place.filter_under {group child : Group} {name : String}
    (found : group.get? name = some (.nested child)) (places : List Place) :
    (places.map (Place.under name)).filter (fun place => group.hasLeaf place.path) =
      (places.filter fun place => child.hasLeaf place.path).map (Place.under name) := by
  have same : (fun place => group.hasLeaf (Place.under name place).path) =
      fun place => child.hasLeaf place.path := by
    funext place
    simp only [Place.under, Group.hasLeaf, found]
  rw [List.filter_map]
  exact congrArg (List.map (Place.under name)) (congrArg (List.filter · places) same)

theorem Place.filter_under_nil {group : Group} {name : String} (absent : group.get? name = none)
    (places : List Place) :
    (places.map (Place.under name)).filter (fun place => group.hasLeaf place.path) = [] := by
  apply List.filter_eq_nil_iff.mpr
  intro place member
  obtain ⟨inner, _, rfl⟩ := List.mem_map.mp member
  simp only [Place.under, Group.hasLeaf, absent, Bool.false_eq_true, not_false_eq_true]

mutual

theorem Tree.map_part_places (tree : Tree) (group : Group) (tokens : List Token) :
    (tree.places group tokens).map (·.part) = tree.leaves group tokens := by
  cases tree with
  | scalar own => rfl
  | stretch kinds => rfl
  | array items => exact Tree.map_part_itemPlaces items group (tokens.drop 1)
  | object members => exact Tree.map_part_memberPlaces members group (tokens.drop 1)

theorem Tree.map_part_itemPlaces (items : List Tree) (group : Group) (tokens : List Token) :
    (Tree.itemPlaces group items tokens).map (·.part) =
      (Tree.itemParts group items tokens).filter (·.selected) := by
  cases items with
  | nil => rfl
  | cons item rest =>
      simp only [Tree.itemPlaces, Tree.itemParts, List.map_append, List.filter_append,
        Tree.map_part_places item group, Tree.map_part_itemPlaces rest group, Tree.leaves]

theorem Tree.map_part_memberPlaces (members : List (String × Tree)) (group : Group)
    (tokens : List Token) :
    (Tree.memberPlaces group members tokens).map (·.part) =
      (Tree.memberParts group members tokens).filter (·.selected) := by
  cases members with
  | nil => rfl
  | cons member rest =>
      rcases member with ⟨name, value⟩
      simp only [Tree.memberPlaces, Tree.memberParts, List.map_append, List.filter_append,
        Tree.map_part_memberPlaces rest group]
      congr 1
      cases group.get? name with
      | none => rfl
      | some selection =>
          cases selection with
          | leaf => rfl
          | nested child =>
              simp only [Place.map_part_under, Tree.map_part_places value child, Tree.leaves]

end

mutual

theorem Tree.filter_places (tree : Tree) {small large : Group} (contained : small.Contained large)
    (tokens : List Token) :
    (tree.places large tokens).filter (fun place => small.hasLeaf place.path) =
      tree.places small tokens := by
  cases tree with
  | scalar own => rfl
  | stretch kinds => rfl
  | array items => exact Tree.filter_itemPlaces items contained (tokens.drop 1)
  | object members => exact Tree.filter_memberPlaces members contained (tokens.drop 1)

theorem Tree.filter_itemPlaces (items : List Tree) {small large : Group}
    (contained : small.Contained large) (tokens : List Token) :
    (Tree.itemPlaces large items tokens).filter (fun place => small.hasLeaf place.path) =
      Tree.itemPlaces small items tokens := by
  cases items with
  | nil => rfl
  | cons item rest =>
      simp only [Tree.itemPlaces, List.filter_append, Tree.filter_places item contained,
        Tree.filter_itemPlaces rest contained]

theorem Tree.filter_memberPlaces (members : List (String × Tree)) {small large : Group}
    (contained : small.Contained large) (tokens : List Token) :
    (Tree.memberPlaces large members tokens).filter (fun place => small.hasLeaf place.path) =
      Tree.memberPlaces small members tokens := by
  cases members with
  | nil => rfl
  | cons member rest =>
      rcases member with ⟨name, value⟩
      simp only [Tree.memberPlaces, List.filter_append, Tree.filter_memberPlaces rest contained]
      congr 1
      cases found : small.get? name with
      | none =>
          cases large.get? name with
          | none => rfl
          | some selection =>
              cases selection with
              | leaf => simp only [List.filter_cons, Group.hasLeaf, found]; rfl
              | nested inner => exact Place.filter_under_nil found _
      | some selection =>
          cases selection with
          | leaf =>
              rw [contained.leaf found]
              simp only [List.filter_cons, Group.hasLeaf, found]
              rfl
          | nested child =>
              obtain ⟨inner, there, within⟩ := contained.nested found
              simp only [there, Place.filter_under found, Tree.filter_places value within]

end

end JsonProjection
