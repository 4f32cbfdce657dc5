import JsonProjection.Projection.Walker

/-!
Documents as trees.

A tree says how the tokens of a document nest. A value is read as a scalar, an array or an object;
a value that nobody looks into may be any stretch of tokens in which the brackets count up. Which
trees a selection accepts is `Tree.Fits`, the grammar of the documents that can be projected.
-/

namespace JsonProjection

open Walk

structure Scalar where
  kind : Token.Kind
  value : Json.Value
  spells : kind.scalar? = some value

/-- How the tokens of a value nest. -/
inductive Tree where
  | scalar (scalar : Scalar)
  | stretch (kinds : List Token.Kind)
  | array (items : List Tree)
  | object (members : List (String × Tree))

def separator (first : Bool) : List Token.Kind :=
  if first then [] else [.comma]

@[simp]
theorem separator_true : separator true = [] :=
  rfl

@[simp]
theorem separator_false : separator false = [.comma] :=
  rfl

mutual

def Tree.kinds : Tree → List Token.Kind
  | .scalar own => [own.kind]
  | .stretch kinds => kinds
  | .array items => .openArray :: Tree.itemKinds true items
  | .object members => .openObject :: Tree.memberKinds true members

/-- The tokens behind the opening bracket of an array, or behind its first items. -/
def Tree.itemKinds (first : Bool) : List Tree → List Token.Kind
  | [] => [.closeArray]
  | item :: rest => separator first ++ (item.kinds ++ Tree.itemKinds false rest)

def Tree.memberKinds (first : Bool) : List (String × Tree) → List Token.Kind
  | [] => [.closeObject]
  | (name, value) :: rest =>
    separator first ++
      (.string name :: .colon :: (value.kinds ++ Tree.memberKinds false rest))

end

/-- The trees of JSON: no stretches. -/
inductive Tree.IsJson : Tree → Prop where
  | scalar (scalar : Scalar) : IsJson (.scalar scalar)
  | array {items : List Tree} (inner : ∀ item ∈ items, IsJson item) : IsJson (.array items)
  | object {members : List (String × Tree)} (inner : ∀ member ∈ members, IsJson member.2) :
      IsJson (.object members)

/-! ### Stretches -/

/-- Tokens up to the first point where none of so many open brackets is left. Both sorts of
brackets count alike. -/
inductive Closes : Nat → List Token.Kind → Prop where
  | last {kind : Token.Kind} (closes : kind.closes?.isSome) : Closes 1 [kind]
  | opens {depth : Nat} {kind : Token.Kind} {rest : List Token.Kind}
      (opens : kind.opens?.isSome) (behind : Closes (depth + 1) rest) :
      Closes depth (kind :: rest)
  | closes {depth : Nat} {kind : Token.Kind} {rest : List Token.Kind}
      (closes : kind.closes?.isSome) (behind : Closes (depth + 1) rest) :
      Closes (depth + 2) (kind :: rest)
  | other {depth : Nat} {kind : Token.Kind} {rest : List Token.Kind}
      (noOpening : kind.opens? = none) (noClosing : kind.closes? = none)
      (inner : kind ≠ .endOfInput) (behind : Closes depth rest) : Closes depth (kind :: rest)

/-- What can be passed over as one value: a scalar, or an opening bracket and what closes it. -/
inductive Passable : List Token.Kind → Prop where
  | scalar {kind : Token.Kind} (scalar : kind.scalar?.isSome) : Passable [kind]
  | stretch {kind : Token.Kind} {rest : List Token.Kind} (opens : kind.opens?.isSome)
      (closes : Closes 1 rest) : Passable (kind :: rest)

/-! ### Selections -/

def Group.treatment (group : Group) (mode : EmitMode) (name : String) : Treatment :=
  match group.get? name, mode with
  | none, _ => .skip
  | some .leaf, .materialize => .keep
  | some .leaf, .raw => .capture name
  | some (.nested child), _ => .project child

def Walk.Treatment.Suits (treatment : Treatment) (mode : EmitMode) : Prop :=
  ∀ name, treatment = .capture name → mode = .raw

/-- The trees that may stand where a value is treated in some way. -/
inductive Tree.Fits (mode : EmitMode) : Treatment → Tree → Prop where
  | skip {tree : Tree} (passable : Passable tree.kinds) : Fits mode .skip tree
  | capture {tree : Tree} (name : String) (raw : mode = .raw) (passable : Passable tree.kinds) :
      Fits mode (.capture name) tree
  | keep {tree : Tree} (json : tree.IsJson) : Fits mode .keep tree
  | scalar (group : Group) (scalar : Scalar) : Fits mode (.project group) (.scalar scalar)
  | array {group : Group} {items : List Tree}
      (inner : ∀ item ∈ items, Fits mode (.project group) item) :
      Fits mode (.project group) (.array items)
  | object {group : Group} {members : List (String × Tree)}
      (inner : ∀ member ∈ members, Fits mode (group.treatment mode member.1) member.2) :
      Fits mode (.project group) (.object members)

/-- The kinds of tokens that spell a document for a plan. -/
def Plan.Accepts (plan : Plan) (kinds : List Token.Kind) : Prop :=
  ∃ tree : Tree, tree.Fits plan.mode (.project plan.group) ∧ kinds = tree.kinds

/-- The kinds of tokens that can be completed to a document. -/
def Plan.Viable (plan : Plan) (kinds : List Token.Kind) : Prop :=
  ∃ rest, plan.Accepts (kinds ++ rest)

theorem Group.treatment_suits (group : Group) (mode : EmitMode) (name : String) :
    (group.treatment mode name).Suits mode := by
  intro captured treated
  unfold Group.treatment at treated
  cases found : group.get? name with
  | none =>
      rw [found] at treated
      cases treated
  | some selection =>
      rw [found] at treated
      cases mode with
      | raw => rfl
      | materialize => cases selection <;> cases treated

namespace Token

theorem Kind.begins_ne {kind : Kind} (begins : kind.opens?.isSome ∨ kind.scalar?.isSome) :
    kind ≠ .closeArray ∧ kind ≠ .endOfInput := by
  constructor
  · rintro rfl
    rcases begins with opens | scalar
    · cases opens
    · cases scalar
  · rintro rfl
    rcases begins with opens | scalar
    · cases opens
    · cases scalar

theorem Kind.closes_ne {kind : Kind} (closes : kind.closes?.isSome) :
    kind.opens? = none ∧ kind ≠ .endOfInput := by
  cases kind with
  | closeObject | closeArray => exact ⟨rfl, Kind.noConfusion⟩
  | _ => cases closes

end Token

/-! ### JSON can be passed over -/

def Balanced (kinds : List Token.Kind) : Prop :=
  ∀ {depth : Nat} {rest : List Token.Kind},
    Closes (depth + 1) rest → Closes (depth + 1) (kinds ++ rest)

theorem Scalar.other (scalar : Scalar) :
    scalar.kind.opens? = none ∧ scalar.kind.closes? = none ∧ scalar.kind ≠ .endOfInput := by
  rcases scalar with ⟨kind, value, spells⟩
  cases kind with
  | string text => exact ⟨rfl, rfl, fun other => by cases other⟩
  | number numeral => exact ⟨rfl, rfl, fun other => by cases other⟩
  | true => exact ⟨rfl, rfl, fun other => by cases other⟩
  | false => exact ⟨rfl, rfl, fun other => by cases other⟩
  | null => exact ⟨rfl, rfl, fun other => by cases other⟩
  | _ => cases spells

namespace Tree

theorem closes_items {items : List Tree} (each : ∀ item ∈ items, Balanced item.kinds)
    (first : Bool) {depth : Nat} {rest : List Token.Kind}
    (close : Closes (depth + 1) (.closeArray :: rest)) :
    Closes (depth + 1) (itemKinds first items ++ rest) := by
  induction items generalizing first with
  | nil => exact close
  | cons item others ih =>
      have tail := ih (fun other member => each other (List.mem_cons_of_mem item member)) false
      have own := each item List.mem_cons_self tail
      rw [itemKinds, List.append_assoc, List.append_assoc]
      cases first with
      | true => exact own
      | false => exact .other rfl rfl (fun other => by cases other) own

theorem closes_members {members : List (String × Tree)}
    (each : ∀ member ∈ members, Balanced member.2.kinds) (first : Bool) {depth : Nat}
    {rest : List Token.Kind} (close : Closes (depth + 1) (.closeObject :: rest)) :
    Closes (depth + 1) (memberKinds first members ++ rest) := by
  induction members generalizing first with
  | nil => exact close
  | cons member others ih =>
      have tail := ih (fun other inside => each other (List.mem_cons_of_mem member inside)) false
      have own := each member List.mem_cons_self tail
      have named : Closes (depth + 1) (.string member.1 :: .colon ::
          (member.2.kinds ++ (memberKinds false others ++ rest))) :=
        .other rfl rfl (fun other => by cases other)
          (.other rfl rfl (fun other => by cases other) own)
      rw [memberKinds, List.append_assoc, List.cons_append, List.cons_append, List.append_assoc]
      cases first with
      | true => exact named
      | false => exact .other rfl rfl (fun other => by cases other) named

theorem IsJson.balanced {tree : Tree} (json : tree.IsJson) : Balanced tree.kinds := by
  induction json with
  | scalar own =>
      intro depth rest behind
      obtain ⟨noOpening, noClosing, inner⟩ := own.other
      rw [kinds, List.singleton_append]
      exact .other noOpening noClosing inner behind
  | array _ ih =>
      intro depth rest behind
      rw [kinds, List.cons_append]
      exact .opens rfl (closes_items ih true (.closes rfl behind))
  | object _ ih =>
      intro depth rest behind
      rw [kinds, List.cons_append]
      exact .opens rfl (closes_members ih true (.closes rfl behind))

theorem IsJson.passable {tree : Tree} (json : tree.IsJson) : Passable tree.kinds := by
  cases json with
  | scalar own =>
      refine .scalar ?_
      rw [own.spells]
      rfl
  | array inner =>
      have closes := closes_items (fun item member => (inner item member).balanced) true
        (Closes.last rfl : Closes 1 [.closeArray])
      rw [List.append_nil] at closes
      exact .stretch rfl closes
  | object inner =>
      have closes := closes_members (fun member inside => (inner member inside).balanced) true
        (Closes.last rfl : Closes 1 [.closeObject])
      rw [List.append_nil] at closes
      exact .stretch rfl closes

theorem IsJson.kinds_ne_nil {tree : Tree} (json : tree.IsJson) : tree.kinds ≠ [] := by
  cases json <;> exact List.cons_ne_nil _ _

/-! ### What fits -/

theorem IsJson.fits {tree : Tree} (json : tree.IsJson) {mode : EmitMode} {treatment : Treatment}
    (suits : treatment.Suits mode) : tree.Fits mode treatment := by
  induction json generalizing treatment with
  | scalar own =>
      cases treatment with
      | skip => exact .skip (IsJson.scalar own).passable
      | capture name => exact .capture name (suits name rfl) (IsJson.scalar own).passable
      | keep => exact .keep (.scalar own)
      | project group => exact .scalar group own
  | array inner ih =>
      cases treatment with
      | skip => exact .skip (IsJson.array inner).passable
      | capture name => exact .capture name (suits name rfl) (IsJson.array inner).passable
      | keep => exact .keep (.array inner)
      | project group => exact .array fun item member => ih item member suits
  | object inner ih =>
      cases treatment with
      | skip => exact .skip (IsJson.object inner).passable
      | capture name => exact .capture name (suits name rfl) (IsJson.object inner).passable
      | keep => exact .keep (.object inner)
      | project group =>
          exact .object fun member inside => ih member inside (group.treatment_suits mode member.1)

theorem Fits.raw {tree : Tree} {group : Group} (fits : tree.Fits .materialize (.project group)) :
    tree.Fits .raw (.project group) := by
  have all : ∀ {treatment : Treatment} {tree : Tree}, tree.Fits .materialize treatment →
      match treatment with
      | .keep => tree.IsJson
      | other => tree.Fits .raw other := by
    intro treatment tree fits
    induction fits with
    | skip passable => exact .skip passable
    | capture name raw passable => exact .capture name rfl passable
    | keep json => exact json
    | scalar group own => exact .scalar group own
    | array _ ih => exact .array ih
    | @object group members _ ih =>
        refine .object fun member inside => ?_
        have own := ih member inside
        unfold Group.treatment at own ⊢
        cases found : group.get? member.1 with
        | none =>
            rw [found] at own
            exact own
        | some selection =>
            rw [found] at own
            cases selection with
            | leaf => exact .capture member.1 rfl (IsJson.passable own)
            | nested child => exact own
  exact all fits

/-! ### No document holds its own end -/

def Inner (kinds : List Token.Kind) : Prop :=
  ∀ kind ∈ kinds, kind ≠ .endOfInput

theorem inner_nil : Inner [] :=
  fun _ member => absurd member List.not_mem_nil

theorem inner_cons {kind : Token.Kind} {rest : List Token.Kind} (own : kind ≠ .endOfInput)
    (behind : Inner rest) : Inner (kind :: rest) :=
  List.forall_mem_cons.mpr ⟨own, behind⟩

theorem inner_append {first second : List Token.Kind} (front : Inner first)
    (behind : Inner second) : Inner (first ++ second) :=
  List.forall_mem_append.mpr ⟨front, behind⟩

theorem inner_separator (first : Bool) : Inner (separator first) := by
  cases first with
  | true => exact inner_nil
  | false => exact inner_cons (fun other => by cases other) inner_nil

theorem closes_inner {depth : Nat} {kinds : List Token.Kind} (closes : Closes depth kinds) :
    Inner kinds := by
  induction closes with
  | last closing => exact inner_cons (Token.Kind.closes_ne closing).2 inner_nil
  | opens opening _ ih => exact inner_cons (Token.Kind.begins_ne (Or.inl opening)).2 ih
  | closes closing _ ih => exact inner_cons (Token.Kind.closes_ne closing).2 ih
  | other _ _ own _ ih => exact inner_cons own ih

theorem passable_inner {kinds : List Token.Kind} (passable : Passable kinds) : Inner kinds := by
  cases passable with
  | scalar scalar =>
      exact inner_cons (Token.Kind.begins_ne (Or.inr scalar)).2 inner_nil
  | stretch opens closes =>
      exact inner_cons (Token.Kind.begins_ne (Or.inl opens)).2 (closes_inner closes)

theorem itemKinds_inner {items : List Tree} (each : ∀ item ∈ items, Inner item.kinds)
    (first : Bool) : Inner (itemKinds first items) := by
  induction items generalizing first with
  | nil =>
      exact inner_cons (fun other => by cases other) inner_nil
  | cons item rest ih =>
      have behind := ih (fun other member => each other (List.mem_cons_of_mem item member)) false
      exact inner_append (inner_separator first)
        (inner_append (each item List.mem_cons_self) behind)

theorem memberKinds_inner {members : List (String × Tree)}
    (each : ∀ member ∈ members, Inner member.2.kinds) (first : Bool) :
    Inner (memberKinds first members) := by
  induction members generalizing first with
  | nil =>
      exact inner_cons (fun other => by cases other) inner_nil
  | cons member rest ih =>
      have behind := ih (fun other inside => each other (List.mem_cons_of_mem member inside)) false
      exact inner_append (inner_separator first)
        (inner_cons (fun other => by cases other)
          (inner_cons (fun other => by cases other)
            (inner_append (each member List.mem_cons_self) behind)))

theorem Fits.inner {mode : EmitMode} {treatment : Treatment} {tree : Tree}
    (fits : tree.Fits mode treatment) : Inner tree.kinds := by
  induction fits with
  | skip passable => exact passable_inner passable
  | capture name raw passable => exact passable_inner passable
  | keep json => exact passable_inner json.passable
  | scalar group own => exact inner_cons own.other.2.2 inner_nil
  | array _ ih => exact inner_cons (fun other => by cases other) (itemKinds_inner ih true)
  | object _ ih => exact inner_cons (fun other => by cases other) (memberKinds_inner ih true)

end Tree

/-! ### Tokens of containers -/

theorem drop_separator {first : Bool} {lead : List Token}
    (spelled : lead.map (·.kind) = separator first) (behind : List Token) :
    (lead ++ behind).drop (separator first).length = behind := by
  rw [← spelled, List.length_map, List.drop_left]

theorem memberKinds_split {first : Bool} {name : String} {value : Tree}
    {rest : List (String × Tree)} {tokens : List Token}
    (spelled : tokens.map (·.kind) = Tree.memberKinds first ((name, value) :: rest)) :
    ∃ lead key colon own behind, tokens = (lead ++ [key, colon]) ++ (own ++ behind) ∧
      lead.map (·.kind) = separator first ∧ key.kind = .string name ∧ colon.kind = .colon ∧
      own.map (·.kind) = value.kinds ∧
      behind.map (·.kind) = Tree.memberKinds false rest := by
  rw [Tree.memberKinds] at spelled
  obtain ⟨lead, others, rfl, leadSpelled, othersSpelled⟩ := List.map_eq_append_iff.mp spelled
  obtain ⟨key, more, rfl, keyKind, moreSpelled⟩ := List.map_eq_cons_iff.mp othersSpelled
  obtain ⟨colon, values, rfl, colonKind, valuesSpelled⟩ := List.map_eq_cons_iff.mp moreSpelled
  obtain ⟨own, behind, rfl, ownSpelled, behindSpelled⟩ := List.map_eq_append_iff.mp valuesSpelled
  refine ⟨lead, key, colon, own, behind, ?_, leadSpelled, keyKind, colonKind, ownSpelled,
    behindSpelled⟩
  rw [List.append_assoc]
  rfl

end JsonProjection
