import JsonProjection.Proofs.Selection.Distinct

/-!
Selections that ask for less.

A group is contained in another if all that it asks for is asked for there. The order of the fields
plays no part.
-/

namespace JsonProjection

/-- Every field of a group is one of the other: leaves are leaves there, and the groups inside are
contained in the groups there. -/
def Group.Contained : Group → Group → Prop
  | .empty, _ => True
  | .leaf name rest, large => large.get? name = some .leaf ∧ rest.Contained large
  | .nested name child rest, large =>
    (∃ other, large.get? name = some (.nested other) ∧ child.Contained other) ∧
      rest.Contained large

def Selection.Contained : Selection → Selection → Prop
  | .leaf, other => other = .leaf
  | .nested child, other => ∃ inner, other = .nested inner ∧ child.Contained inner

def Group.hasLeaf (group : Group) : List String → Bool
  | [] => false
  | name :: rest =>
    match group.get? name with
    | none => false
    | some .leaf => rest.isEmpty
    | some (.nested child) => child.hasLeaf rest

namespace Group

theorem mem_of_get? {group : Group} {name : String} {selection : Selection}
    (found : group.get? name = some selection) : (name, selection) ∈ group.fields := by
  obtain ⟨⟨index, own⟩, place, rfl⟩ := Option.map_eq_some_iff.mp found
  exact List.mem_of_getElem? (lookup_fields place)

theorem get?_of_mem {group : Group} (nodup : group.names.Nodup) {field : String × Selection}
    (member : field ∈ group.fields) : group.get? field.1 = some field.2 := by
  obtain ⟨index, place⟩ := List.mem_iff_getElem?.mp member
  rw [get?, lookup_of_fields nodup place]
  rfl

variable {small large : Group} {name : String}

theorem Contained.of_fields (distinct : small.Distinct)
    (there : ∀ field ∈ small.fields, large.get? field.1 = some field.2) :
    small.Contained large := by
  induction small generalizing large with
  | empty => trivial
  | leaf first rest ih =>
      obtain ⟨own, others⟩ := List.forall_mem_cons.mp there
      exact ⟨own, ih distinct.2 others⟩
  | nested first child rest inner ih =>
      obtain ⟨own, others⟩ := List.forall_mem_cons.mp there
      obtain ⟨-, within, behind⟩ := distinct
      exact ⟨⟨child, own, inner within fun _ member => get?_of_mem within.nodup member⟩,
        ih behind others⟩

theorem Distinct.contained (distinct : small.Distinct) : small.Contained small :=
  .of_fields distinct fun _ member => get?_of_mem distinct.nodup member

theorem Contained.field (contained : small.Contained large) {selection : Selection}
    (found : small.get? name = some selection) :
    ∃ other, large.get? name = some other ∧ selection.Contained other := by
  have member := mem_of_get? found
  clear found
  induction small with
  | empty => cases member
  | leaf first rest ih =>
      rcases List.mem_cons.mp member with same | behind
      · cases same
        exact ⟨.leaf, contained.1, rfl⟩
      · exact ih contained.2 behind
  | nested first child rest _ ih =>
      rcases List.mem_cons.mp member with same | behind
      · cases same
        obtain ⟨inner, there, within⟩ := contained.1
        exact ⟨.nested inner, there, inner, rfl, within⟩
      · exact ih contained.2 behind

theorem Contained.leaf (contained : small.Contained large)
    (found : small.get? name = some .leaf) : large.get? name = some .leaf := by
  obtain ⟨other, there, same⟩ := contained.field found
  rw [there, same]

theorem Contained.nested (contained : small.Contained large) {child : Group}
    (found : small.get? name = some (.nested child)) :
    ∃ inner, large.get? name = some (.nested inner) ∧ child.Contained inner := by
  obtain ⟨other, there, inner, same, within⟩ := contained.field found
  exact ⟨inner, by rw [there, same], within⟩

end Group
end JsonProjection
