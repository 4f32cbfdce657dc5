import JsonProjection.Proofs.Json.Members
import JsonProjection.Proofs.Selection.Distinct
import JsonProjection.Proofs.Syntax.Tree
import JsonProjection.Proofs.Token.Spans

/-!
What a selection makes of a tree.

`Tree.project` is the projection as a function on trees, and `Tree.parts` are the values at which a
projection stops looking: the leaves of the selection, and what is not selected.
-/

namespace JsonProjection

/-! ### Values -/

mutual

/-- All of a value. In an object every key keeps its first place and its last value. A stretch has
no value. -/
def Tree.whole : Tree → Json.Value
  | .scalar own => own.value
  | .stretch _ => .null
  | .array items => .array (Tree.wholeItems items)
  | .object members => .object (Json.Members.merge (Tree.wholeMembers members))

def Tree.wholeItems : List Tree → List Json.Value
  | [] => []
  | item :: rest => item.whole :: Tree.wholeItems rest

def Tree.wholeMembers : List (String × Tree) → List (String × Json.Value)
  | [] => []
  | (name, value) :: rest => (name, value.whole) :: Tree.wholeMembers rest

end

/-- Those fields of a group that occur among some members, in the order of the group, each with its
last value. -/
def Group.arrange (group : Group) (members : List (String × Json.Value)) :
    List (String × Json.Value) :=
  group.fields.filterMap fun field =>
    (Json.Members.last? field.1 members).map fun value => (field.1, value)

theorem Group.arrange_singleton {group : Group} (nodup : group.names.Nodup) {name : String}
    (present : name ∈ group.names) (value : Json.Value) :
    group.arrange [(name, value)] = [(name, value)] := by
  unfold arrange
  unfold names at nodup present
  simp only [Json.Members.last?_singleton]
  generalize group.fields = fields at nodup present
  induction fields with
  | nil => cases present
  | cons field rest ih =>
      obtain ⟨fresh, others⟩ := List.nodup_cons.mp nodup
      rw [List.filterMap_cons]
      by_cases same : name = field.1
      · have noOther : (rest.filterMap fun field =>
            (if name = field.1 then some value else none).map fun value => (field.1, value)) =
            [] := by
          apply List.filterMap_eq_nil_iff.mpr
          intro other inside
          rw [if_neg]
          · rfl
          · intro equal
            rw [← same, equal] at fresh
            exact fresh (List.mem_map_of_mem inside)
        rw [if_pos same, noOther, same]
        rfl
      · rw [if_neg same]
        exact ih others ((List.mem_cons.mp present).resolve_left same)

mutual

def Tree.project (group : Group) : Tree → Json.Value
  | .scalar own => own.value
  | .stretch _ => .null
  | .array items => .array (Tree.projectItems group items)
  | .object members => .object (group.arrange (Tree.projectMembers group members))

def Tree.projectItems (group : Group) : List Tree → List Json.Value
  | [] => []
  | item :: rest => item.project group :: Tree.projectItems group rest

def Tree.projectMembers (group : Group) : List (String × Tree) → List (String × Json.Value)
  | [] => []
  | (name, value) :: rest =>
    match group.get? name with
    | none => Tree.projectMembers group rest
    | some .leaf => (name, value.whole) :: Tree.projectMembers group rest
    | some (.nested child) => (name, value.project child) :: Tree.projectMembers group rest

end

/-- The values that a document is delivered as: one for each item of a root array, or one for the
root. -/
def Tree.records (group : Group) : Tree → List Json.Value
  | .array items => items.map (Tree.project group)
  | tree => [tree.project group]

/-! ### Parts -/

/-- A value in a document that a selection does not look into: the key it stands under, whether
it is a leaf of the selection or not selected, its tokens, and what they spell. -/
structure Part where
  key : String
  selected : Bool
  tokens : List Token
  tree : Tree

def Part.span (part : Part) : Span :=
  Token.cover part.tokens

mutual

def Tree.parts (group : Group) : Tree → List Token → List Part
  | .scalar _, _ => []
  | .stretch _, _ => []
  | .array items, tokens => Tree.itemParts group items (tokens.drop 1)
  | .object members, tokens => Tree.memberParts group members (tokens.drop 1)

/-- The parts of some items. `tokens` begin with the first item, and behind each item one token
follows. -/
def Tree.itemParts (group : Group) : List Tree → List Token → List Part
  | [], _ => []
  | item :: rest, tokens =>
    item.parts group (tokens.take item.kinds.length) ++
      Tree.itemParts group rest (tokens.drop (item.kinds.length + 1))

/-- The parts of some members. `tokens` begin with the first key, and behind each value one token
follows. -/
def Tree.memberParts (group : Group) : List (String × Tree) → List Token → List Part
  | [], _ => []
  | (name, value) :: rest, tokens =>
    let own := (tokens.drop 2).take value.kinds.length
    let here :=
      match group.get? name with
      | none => [⟨name, false, own, value⟩]
      | some .leaf => [⟨name, true, own, value⟩]
      | some (.nested child) => value.parts child own
    here ++ Tree.memberParts group rest (tokens.drop (value.kinds.length + 3))

end

def Tree.leaves (group : Group) (tree : Tree) (tokens : List Token) : List Part :=
  (tree.parts group tokens).filter (·.selected)

namespace Tree

theorem wholeItems_eq (items : List Tree) : wholeItems items = items.map whole := by
  induction items with
  | nil => rfl
  | cons item rest ih => rw [wholeItems, ih, List.map_cons]

theorem projectItems_eq (group : Group) (items : List Tree) :
    projectItems group items = items.map (project group) := by
  induction items with
  | nil => rfl
  | cons item rest ih => rw [projectItems, ih, List.map_cons]

end Tree
end JsonProjection
