/-!
Selections: which fields of an object are wanted, and what of each.

A group lists the wanted fields in the order in which an answer shows them. A leaf asks for the
whole value of a field, a nested group for those parts of it that the group lists in turn.
-/

namespace JsonProjection

inductive Group where
  | empty
  | leaf (name : String) (rest : Group)
  | nested (name : String) (child rest : Group)
  deriving DecidableEq, Repr, Inhabited

/-- What is wanted of one field: all of it, or the parts that a group lists. -/
inductive Selection where
  | leaf
  | nested (child : Group)
  deriving DecidableEq, Repr, Inhabited

namespace Group

def cons (name : String) (selection : Selection) (rest : Group) : Group :=
  match selection with
  | .leaf => .leaf name rest
  | .nested child => .nested name child rest

def fields : Group → List (String × Selection)
  | .empty => []
  | .leaf name rest => (name, .leaf) :: rest.fields
  | .nested name child rest => (name, .nested child) :: rest.fields

def ofFields : List (String × Selection) → Group
  | [] => .empty
  | (name, selection) :: rest => cons name selection (ofFields rest)

def size (group : Group) : Nat :=
  group.fields.length

def isEmpty (group : Group) : Bool :=
  group.fields.isEmpty

/-- The position of the field of some name, and what is wanted of it. -/
def lookup (group : Group) (name : String) : Option (Nat × Selection) :=
  match group.fields.findIdx? (·.1 == name) with
  | none => none
  | some index => (group.fields[index]?).map fun field => (index, field.2)

def get? (group : Group) (name : String) : Option Selection :=
  (group.lookup name).map (·.2)

def contains (group : Group) (name : String) : Bool :=
  (group.get? name).isSome

def snoc : Group → String → Selection → Group
  | .empty, name, selection => cons name selection .empty
  | .leaf first rest, name, selection => .leaf first (rest.snoc name selection)
  | .nested first child rest, name, selection => .nested first child (rest.snoc name selection)

/-- Adds a field behind the others, unless there is one of that name: the group, and whether the
field was added. -/
def insert (group : Group) (name : String) (selection : Selection) : Group × Bool :=
  if group.contains name then (group, false) else (group.snoc name selection, true)

def withField (group : Group) (name : String) (selection : Selection) : Group :=
  (group.insert name selection).1

/-- The fields of a group as a query spells them, each behind a comma but for the first, put in
front of `behind`. -/
def fieldChars (first : Bool) : Group → List Char → List Char
  | .empty, behind => behind
  | .leaf name rest, behind =>
    (if first then [] else [',', ' ']) ++ (name.toList ++ rest.fieldChars false behind)
  | .nested name child rest, behind =>
    let inner := child.fieldChars true (' ' :: '}' :: rest.fieldChars false behind)
    (if first then [] else [',', ' ']) ++ (name.toList ++ ' ' :: '{' :: ' ' :: inner)

def text (group : Group) : String :=
  String.ofList ('{' :: ' ' :: group.fieldChars true [' ', '}'])

end Group
end JsonProjection
