import JsonProjection.Selection.Group

/-!
Groups whose fields have different names.

The operations that build a group never put a name in twice, so that a field is known by its name
as well as by its position.
-/

namespace JsonProjection.Group

def names (group : Group) : List String :=
  group.fields.map Prod.fst

/-- No name occurs twice in the group, nor in a group inside it. -/
def Distinct : Group → Prop
  | .empty => True
  | .leaf name rest => name ∉ rest.names ∧ rest.Distinct
  | .nested name child rest => name ∉ rest.names ∧ child.Distinct ∧ rest.Distinct

/-- The groups that can be built: fields are added one by one to the empty group, and the groups
inside are built in the same way. -/
inductive Built : Group → Prop where
  | empty : Built .empty
  | leaf {group : Group} (built : Built group) (name : String) :
      Built (group.withField name .leaf)
  | nested {group child : Group} (built : Built group) (inner : Built child) (name : String) :
      Built (group.withField name (.nested child))

/-! ### Looking a field up -/

theorem lookup_eq_none {group : Group} {name : String} :
    group.lookup name = none ↔ name ∉ group.names := by
  have missing : group.fields.findIdx? (·.1 == name) = none ↔ name ∉ group.names := by
    simp only [List.findIdx?_eq_none_iff, names, List.mem_map, not_exists, not_and,
      beq_eq_false_iff_ne, ne_eq]
  unfold lookup
  cases found : group.fields.findIdx? (·.1 == name) with
  | none => simpa only [true_iff] using missing.mp found
  | some index =>
      obtain ⟨inside, _⟩ := List.findIdx?_eq_some_iff_getElem.mp found
      simp only [List.getElem?_eq_getElem inside, Option.map_some, reduceCtorEq, false_iff]
      intro absent
      rw [missing.mpr absent] at found
      cases found

theorem contains_eq_false {group : Group} {name : String} :
    group.contains name = false ↔ name ∉ group.names := by
  rw [← lookup_eq_none, contains, get?, Option.isSome_eq_false_iff, Option.isNone_map,
    Option.isNone_iff_eq_none]

theorem lookup_fields {group : Group} {name : String} {index : Nat} {selection : Selection}
    (found : group.lookup name = some (index, selection)) :
    group.fields[index]? = some (name, selection) := by
  unfold lookup at found
  cases place : group.fields.findIdx? (·.1 == name) with
  | none =>
      rw [place] at found
      cases found
  | some first =>
      obtain ⟨inside, named, _⟩ := List.findIdx?_eq_some_iff_getElem.mp place
      rw [place] at found
      simp only [List.getElem?_eq_getElem inside, Option.map_some, Option.some.injEq,
        Prod.mk.injEq] at found
      obtain ⟨rfl, rfl⟩ := found
      rw [List.getElem?_eq_getElem inside]
      simp only [beq_iff_eq] at named
      rw [← named]

theorem lookup_of_fields {group : Group} (nodup : group.names.Nodup) {name : String} {index : Nat}
    {selection : Selection} (field : group.fields[index]? = some (name, selection)) :
    group.lookup name = some (index, selection) := by
  obtain ⟨inside, here⟩ := List.getElem?_eq_some_iff.mp field
  have place : group.fields.findIdx? (·.1 == name) = some index := by
    refine List.findIdx?_eq_some_iff_getElem.mpr ⟨inside, ?_, ?_⟩
    · rw [here]
      exact beq_self_eq_true name
    · intro other less same
      have inner : index < group.names.length := by
        rw [names, List.length_map]
        exact inside
      have apart := List.pairwise_iff_getElem.mp nodup other index (Nat.lt_trans less inner) inner
        less
      simp only [names, List.getElem_map, here] at apart
      exact apart (beq_iff_eq.mp same)
  unfold lookup
  rw [place]
  simp only [field, Option.map_some]

/-! ### Adding a field -/

theorem fields_cons (name : String) (selection : Selection) (rest : Group) :
    (cons name selection rest).fields = (name, selection) :: rest.fields := by
  cases selection <;> rfl

theorem fields_snoc (group : Group) (name : String) (selection : Selection) :
    (group.snoc name selection).fields = group.fields ++ [(name, selection)] := by
  induction group with
  | empty => exact fields_cons name selection .empty
  | leaf first rest ih => rw [snoc, fields, ih, fields, List.cons_append]
  | nested first child rest _ ih => rw [snoc, fields, ih, fields, List.cons_append]

theorem names_snoc (group : Group) (name : String) (selection : Selection) :
    (group.snoc name selection).names = group.names ++ [name] := by
  rw [names, fields_snoc, List.map_append]
  rfl

theorem Distinct.nodup {group : Group} (distinct : group.Distinct) : group.names.Nodup := by
  induction group with
  | empty => exact List.nodup_nil
  | leaf name rest ih => exact List.nodup_cons.mpr ⟨distinct.1, ih distinct.2⟩
  | nested name child rest _ ih => exact List.nodup_cons.mpr ⟨distinct.1, ih distinct.2.2⟩

theorem Distinct.child {group : Group} (distinct : group.Distinct) {name : String} {child : Group}
    (field : (name, Selection.nested child) ∈ group.fields) : child.Distinct := by
  induction group with
  | empty => cases field
  | leaf first rest ih =>
      rcases List.mem_cons.mp field with same | behind
      · cases same
      · exact ih distinct.2 behind
  | nested first inner rest _ ih =>
      rcases List.mem_cons.mp field with same | behind
      · cases same
        exact distinct.2.1
      · exact ih distinct.2.2 behind

theorem Distinct.lookup {group : Group} (distinct : group.Distinct) {name : String} {index : Nat}
    {child : Group} (found : group.lookup name = some (index, .nested child)) :
    child.Distinct :=
  distinct.child (List.mem_of_getElem? (lookup_fields found))

theorem Distinct.snoc {group : Group} (distinct : group.Distinct) {name : String}
    (fresh : name ∉ group.names) {selection : Selection}
    (inner : ∀ child, selection = .nested child → child.Distinct) :
    (group.snoc name selection).Distinct := by
  induction group with
  | empty =>
      cases selection with
      | leaf => exact ⟨List.not_mem_nil, trivial⟩
      | nested child => exact ⟨List.not_mem_nil, inner child rfl, trivial⟩
  | leaf first rest ih =>
      have apart := List.ne_and_not_mem_of_not_mem_cons fresh
      refine ⟨?_, ih distinct.2 apart.2⟩
      rw [names_snoc, List.mem_append, List.mem_singleton]
      exact not_or.mpr ⟨distinct.1, Ne.symm apart.1⟩
  | nested first child rest _ ih =>
      have apart := List.ne_and_not_mem_of_not_mem_cons fresh
      refine ⟨?_, distinct.2.1, ih distinct.2.2 apart.2⟩
      rw [names_snoc, List.mem_append, List.mem_singleton]
      exact not_or.mpr ⟨distinct.1, Ne.symm apart.1⟩

theorem Distinct.withField {group : Group} (distinct : group.Distinct) (name : String)
    {selection : Selection} (inner : ∀ child, selection = .nested child → child.Distinct) :
    (group.withField name selection).Distinct := by
  unfold Group.withField Group.insert Group.contains Group.get?
  cases found : group.lookup name with
  | some field => exact distinct
  | none => exact distinct.snoc (lookup_eq_none.mp found) inner

theorem Built.distinct {group : Group} (built : group.Built) : group.Distinct := by
  induction built with
  | empty => trivial
  | leaf _ name ih => exact ih.withField name fun child same => by cases same
  | nested _ _ name ih inner =>
      apply ih.withField name
      intro child same
      cases same
      exact inner

theorem fields_inj {group other : Group} (same : group.fields = other.fields) : group = other := by
  induction group generalizing other with
  | empty =>
      cases other with
      | empty => rfl
      | leaf name rest => cases same
      | nested name child rest => cases same
  | leaf first rest ih =>
      cases other with
      | empty => cases same
      | leaf name behind =>
          obtain ⟨head, tail⟩ := List.cons_eq_cons.mp same
          cases head
          rw [ih tail]
      | nested name child behind => cases same
  | nested first inner rest _ ih =>
      cases other with
      | empty => cases same
      | leaf name behind => cases same
      | nested name child behind =>
          obtain ⟨head, tail⟩ := List.cons_eq_cons.mp same
          cases head
          rw [ih tail]

theorem withField_fresh {group : Group} {name : String} (fresh : name ∉ group.names)
    (selection : Selection) : group.withField name selection = group.snoc name selection := by
  unfold withField insert contains get?
  rw [lookup_eq_none.mpr fresh]
  rfl

theorem withField_known {group : Group} {name : String} (known : name ∈ group.names)
    (selection : Selection) : group.withField name selection = group := by
  have held := mt contains_eq_false.mp (not_not_intro known)
  rw [Bool.not_eq_false] at held
  rw [withField, insert, if_pos held]

theorem apart_snoc {front rest : Group} {name : String} (fresh : name ∉ rest.names)
    (apart : ∀ other ∈ rest.names, other ∉ front.names) (selection : Selection) :
    ∀ other ∈ rest.names, other ∉ (front.snoc name selection).names := by
  intro other inside
  rw [names_snoc, List.mem_append, List.mem_singleton, not_or]
  exact ⟨apart other inside, fun same => fresh (same ▸ inside)⟩

theorem Distinct.built_behind {group : Group} (distinct : group.Distinct) {front : Group}
    (built : front.Built) (apart : ∀ name ∈ group.names, name ∉ front.names) :
    ∃ whole : Group, whole.Built ∧ whole.fields = front.fields ++ group.fields := by
  induction group generalizing front with
  | empty => exact ⟨front, built, (List.append_nil _).symm⟩
  | leaf name rest ih =>
      obtain ⟨fresh, others⟩ := List.forall_mem_cons.mp apart
      have next := built.leaf name
      rw [withField_fresh fresh] at next
      obtain ⟨whole, complete, fields⟩ := ih distinct.2 next (apart_snoc distinct.1 others _)
      rw [fields_snoc, List.append_assoc] at fields
      exact ⟨whole, complete, fields⟩
  | nested name child rest inner ih =>
      obtain ⟨fresh, others⟩ := List.forall_mem_cons.mp apart
      obtain ⟨own, made, same⟩ := inner distinct.2.1 .empty fun _ _ => List.not_mem_nil
      obtain rfl := fields_inj same
      have next := built.nested made name
      rw [withField_fresh fresh] at next
      obtain ⟨whole, complete, fields⟩ :=
        ih distinct.2.2 next (apart_snoc distinct.1 others _)
      rw [fields_snoc, List.append_assoc] at fields
      exact ⟨whole, complete, fields⟩

theorem Distinct.built {group : Group} (distinct : group.Distinct) : group.Built := by
  obtain ⟨whole, built, same⟩ := distinct.built_behind .empty fun _ _ => List.not_mem_nil
  obtain rfl := fields_inj same
  exact built

end JsonProjection.Group
