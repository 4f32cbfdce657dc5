import JsonProjection.Selection.Group
import Std.Data.HashMap

/-!
Groups that are built field by field, with an index of their names.

Beside its fields such a group keeps the position of each by its name, so that a name is found
without a search. The groups inside are indexed in the same way.
-/

namespace JsonProjection

mutual

inductive IndexedSelection where
  | leaf
  | nested (child : IndexedGroup)

/-- The wanted fields of an object in order, and the position of each by its name. -/
structure IndexedGroup where
  fields : List (String × IndexedSelection)
  index : Std.HashMap String Nat

end

mutual

/-- Two groups are the same if their fields are, one by one, and their indexes. -/
def IndexedGroup.same : IndexedGroup → IndexedGroup → Bool
  | ⟨fields, index⟩, ⟨others, other⟩ => IndexedGroup.sameFields fields others && index == other

def IndexedSelection.same : IndexedSelection → IndexedSelection → Bool
  | .leaf, .leaf => true
  | .nested child, .nested other => child.same other
  | _, _ => false

def IndexedGroup.sameFields :
    List (String × IndexedSelection) → List (String × IndexedSelection) → Bool
  | [], [] => true
  | (name, selection) :: rest, (other, wanted) :: others =>
    name == other && selection.same wanted && IndexedGroup.sameFields rest others
  | _, _ => false

end

instance : BEq IndexedGroup :=
  ⟨IndexedGroup.same⟩

mutual

def IndexedGroup.plain : IndexedGroup → Group
  | ⟨fields, _⟩ => Group.ofFields (IndexedGroup.plainFields fields)

def IndexedSelection.plain : IndexedSelection → Selection
  | .leaf => .leaf
  | .nested child => .nested child.plain

def IndexedGroup.plainFields : List (String × IndexedSelection) → List (String × Selection)
  | [] => []
  | (name, selection) :: rest => (name, selection.plain) :: IndexedGroup.plainFields rest

end

namespace IndexedGroup

def new : IndexedGroup :=
  ⟨[], ∅⟩

def lookup (group : IndexedGroup) (name : String) : Option (Nat × IndexedSelection) :=
  match group.index[name]? with
  | none => none
  | some position => (group.fields[position]?).map fun field => (position, field.2)

def get? (group : IndexedGroup) (name : String) : Option IndexedSelection :=
  (group.lookup name).map (·.2)

/-- Adds a field behind the others, unless there is one of that name: the group, and whether the
field was added. -/
def insert (group : IndexedGroup) (name : String) (selection : IndexedSelection) :
    IndexedGroup × Bool :=
  if group.index.contains name then (group, false)
  else
    (⟨group.fields ++ [(name, selection)], group.index.insert name group.fields.length⟩, true)

def withField (group : IndexedGroup) (name : String) (selection : IndexedSelection) :
    IndexedGroup :=
  (group.insert name selection).1

/-- Adds the fields of a group, and builds the groups inside. -/
def addAll (into : IndexedGroup) : Group → IndexedGroup
  | .empty => into
  | .leaf name rest => (into.withField name .leaf).addAll rest
  | .nested name child rest => (into.withField name (.nested (addAll new child))).addAll rest

def ofGroup (group : Group) : IndexedGroup :=
  new.addAll group

end IndexedGroup
end JsonProjection
