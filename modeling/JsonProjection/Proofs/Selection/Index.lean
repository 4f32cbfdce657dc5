import JsonProjection.Proofs.Selection.Distinct
import JsonProjection.Selection.Indexed
import Mathlib.Data.List.Induction
import Mathlib.Data.List.Nodup

/-!
The index of a group agrees with its fields.

However a group was built field by field, its index gives the position of every field by its name,
and nothing else. So the index is settled by the fields: it makes no difference between two groups,
and a name is found where a search of the fields finds it.
-/

namespace JsonProjection

/-! ### Groups without their indexes -/

theorem Group.fields_ofFields (fields : List (String × Selection)) :
    (Group.ofFields fields).fields = fields := by
  induction fields with
  | nil => rfl
  | cons field rest ih => rw [ofFields, fields_cons, ih]

namespace IndexedGroup

variable {group other : IndexedGroup} {name : String} {selection : IndexedSelection}
  {position : Nat}

def names (group : IndexedGroup) : List String :=
  group.fields.map Prod.fst

def plainField (field : String × IndexedSelection) : String × Selection :=
  (field.1, field.2.plain)

theorem plainFields_eq (fields : List (String × IndexedSelection)) :
    plainFields fields = fields.map plainField := by
  induction fields with
  | nil => rfl
  | cons field rest ih => rw [plainFields, ih, List.map_cons, plainField]

theorem plain_fields (group : IndexedGroup) : group.plain.fields = group.fields.map plainField := by
  rcases group with ⟨fields, index⟩
  rw [plain, Group.fields_ofFields, plainFields_eq]

theorem plain_names (group : IndexedGroup) : group.plain.names = group.names := by
  rw [Group.names, plain_fields, List.map_map]
  rfl

/-! ### Fields and their index -/

/-- The index gives the position of every field by its name, and no other. -/
def Agrees (group : IndexedGroup) : Prop :=
  ∀ (name : String) (position : Nat),
    group.index[name]? = some position ↔ group.names[position]? = some name

theorem agrees_new : new.Agrees := by
  intro name position
  simp only [new, names, Std.HashMap.getElem?_empty, List.map_nil, List.getElem?_nil, reduceCtorEq]

theorem Agrees.contains (agrees : group.Agrees) (name : String) :
    group.index.contains name = true ↔ name ∈ group.names := by
  rw [Std.HashMap.contains_eq_isSome_getElem?, Option.isSome_iff_exists, List.mem_iff_getElem?]
  exact exists_congr fun position => agrees name position

/-- No two fields have one name, for the index gives one position. -/
theorem Agrees.nodup (agrees : group.Agrees) : group.names.Nodup := by
  rw [List.nodup_iff_getElem?_ne_getElem?]
  intro first second before inside same
  have there := List.getElem?_eq_getElem inside
  have one := (agrees _ first).mpr (same.trans there)
  rw [(agrees _ second).mpr there] at one
  exact Nat.ne_of_gt before (Option.some.inj one)

theorem Agrees.insert_of_mem (agrees : group.Agrees) (known : name ∈ group.names)
    (selection : IndexedSelection) : group.insert name selection = (group, false) := by
  rw [insert, if_pos ((agrees.contains name).mpr known)]

theorem Agrees.insert_of_fresh (agrees : group.Agrees) (fresh : name ∉ group.names)
    (selection : IndexedSelection) :
    group.insert name selection = (⟨group.fields ++ [(name, selection)],
      group.index.insert name group.fields.length⟩, true) := by
  rw [insert, if_neg fun held => fresh ((agrees.contains name).mp held)]

private theorem getElem?_snoc {names : List String} {name other : String} {position : Nat} :
    (names ++ [name])[position]? = some other ↔
      names[position]? = some other ∨ position = names.length ∧ name = other := by
  rw [List.getElem?_append]
  split
  · rename_i inside
    simp only [Nat.ne_of_lt inside, false_and, or_false]
  · rename_i behind
    have none : names[position]? = none := List.getElem?_eq_none (Nat.le_of_not_lt behind)
    rw [List.getElem?_singleton, none]
    split
    · rename_i last
      have same : position = names.length := by omega
      simp only [Option.some.injEq, reduceCtorEq, same, true_and, false_or]
    · rename_i past
      have further : position ≠ names.length := by omega
      simp only [reduceCtorEq, further, false_and, or_self]

theorem Agrees.withField_fields (agrees : group.Agrees) (name : String)
    (selection : IndexedSelection) :
    (group.withField name selection).fields =
      if name ∈ group.names then group.fields else group.fields ++ [(name, selection)] := by
  unfold IndexedGroup.withField
  split
  · rename_i known
    rw [agrees.insert_of_mem known]
  · rename_i fresh
    rw [agrees.insert_of_fresh fresh]

theorem Agrees.withField (agrees : group.Agrees) (name : String) (selection : IndexedSelection) :
    (group.withField name selection).Agrees := by
  unfold IndexedGroup.withField
  by_cases known : name ∈ group.names
  · rw [agrees.insert_of_mem known]
    exact agrees
  · rw [agrees.insert_of_fresh known]
    intro other position
    have grown : IndexedGroup.names ⟨group.fields ++ [(name, selection)],
        group.index.insert name group.fields.length⟩ = group.names ++ [name] := List.map_append
    have length : group.names.length = group.fields.length := List.length_map _
    rw [grown, getElem?_snoc, length]
    simp only [Std.HashMap.getElem?_insert]
    by_cases same : name = other
    · subst same
      -- A new name stood nowhere before, so the end is its one position.
      have nowhere : group.names[position]? ≠ some name := fun there =>
        known (List.mem_of_getElem? there)
      simp only [beq_self_eq_true, if_true, Option.some.injEq, nowhere, and_true, false_or]
      exact eq_comm
    · simp only [beq_eq_false_iff_ne.mpr same, Bool.false_eq_true, if_false, same, and_false,
        or_false]
      exact agrees other position

theorem Agrees.lookup (agrees : group.Agrees) :
    group.lookup name = some (position, selection) ↔
      group.fields[position]? = some (name, selection) := by
  unfold IndexedGroup.lookup
  constructor
  · intro found
    cases place : group.index[name]? with
    | none =>
        rw [place] at found
        cases found
    | some index =>
        rw [place] at found
        obtain ⟨⟨own, wanted⟩, field, same⟩ := Option.map_eq_some_iff.mp found
        cases same
        have named := (agrees name position).mp place
        rw [names, List.getElem?_map, field] at named
        cases named
        exact field
  · intro field
    have named : group.names[position]? = some name := by
      rw [names, List.getElem?_map, field]
      rfl
    rw [(agrees name position).mpr named]
    simp only [field, Option.map_some]

theorem Agrees.lookup_none (agrees : group.Agrees) :
    group.lookup name = none ↔ name ∉ group.names := by
  rw [← not_iff_not, not_not, ← ne_eq, Option.ne_none_iff_exists', names, List.mem_map]
  constructor
  · rintro ⟨⟨position, selection⟩, found⟩
    exact ⟨_, List.mem_of_getElem? (agrees.lookup.mp found), rfl⟩
  · rintro ⟨⟨own, selection⟩, member, rfl⟩
    obtain ⟨position, field⟩ := List.mem_iff_getElem?.mp member
    exact ⟨(position, selection), agrees.lookup.mpr field⟩

theorem Agrees.plain_lookup (agrees : group.Agrees) (name : String) :
    group.plain.lookup name = (group.lookup name).map fun found => (found.1, found.2.plain) := by
  have nodup : group.plain.names.Nodup := by
    rw [plain_names]
    exact agrees.nodup
  cases found : group.lookup name with
  | none =>
      rw [Option.map_none, Group.lookup_eq_none, plain_names]
      exact agrees.lookup_none.mp found
  | some field =>
      have here := agrees.lookup.mp found
      refine Group.lookup_of_fields nodup ?_
      rw [plain_fields, List.getElem?_map, here]
      rfl

theorem Agrees.plain_withField (agrees : group.Agrees) (name : String)
    (selection : IndexedSelection) :
    (group.withField name selection).plain = group.plain.withField name selection.plain := by
  refine Group.fields_inj ?_
  rw [plain_fields, agrees.withField_fields]
  split
  · rename_i known
    rw [← plain_names] at known
    rw [Group.withField_known known, plain_fields]
  · rename_i fresh
    rw [← plain_names] at fresh
    rw [Group.withField_fresh fresh, Group.fields_snoc, List.map_append, plain_fields]
    rfl

theorem Agrees.index_beq (agrees : group.Agrees) (otherAgrees : other.Agrees)
    (names : group.names = other.names) : (group.index == other.index) = true := by
  refine Std.HashMap.Equiv.beq (Std.HashMap.Equiv.of_forall_getElem?_eq fun name => ?_)
  refine Option.ext fun position => ?_
  rw [agrees name position, otherAgrees name position, names]

/-! ### Calls that add fields -/

/-- A call that adds a field: one that tells whether it was added, and one that hands the group
on. -/
inductive Call where
  | insert (name : String) (selection : IndexedSelection)
  | withField (name : String) (selection : IndexedSelection)

def Call.field : Call → String × IndexedSelection
  | .insert name selection => (name, selection)
  | .withField name selection => (name, selection)

def Call.make (group : IndexedGroup) : Call → IndexedGroup
  | .insert name selection => (group.insert name selection).1
  | .withField name selection => group.withField name selection

def behind (calls : List Call) : IndexedGroup :=
  calls.foldl Call.make new

/-- The groups that can be built: by calls on a new group, with groups inside that are built in the
same way. -/
inductive Built : IndexedGroup → Prop where
  | byCalls (calls : List Call)
      (inner : ∀ call ∈ calls, ∀ child, call.field.2 = .nested child → Built child) :
      Built (behind calls)

/-- The first field of every name among some, in order. -/
def firsts : List (String × IndexedSelection) → List (String × IndexedSelection)
  | [] => []
  | field :: rest => field :: (firsts rest).filter fun other => other.1 ≠ field.1

theorem Call.make_eq (group : IndexedGroup) (call : Call) :
    call.make group = group.withField call.field.1 call.field.2 := by
  cases call <;> rfl

theorem behind_snoc (calls : List Call) (call : Call) :
    behind (calls ++ [call]) = (behind calls).withField call.field.1 call.field.2 := by
  rw [behind, List.foldl_concat, ← Call.make_eq]
  rfl

theorem mem_of_firsts {fields : List (String × IndexedSelection)}
    {field : String × IndexedSelection} (member : field ∈ firsts fields) : field ∈ fields := by
  induction fields with
  | nil => exact member
  | cons first rest ih =>
      rcases List.mem_cons.mp member with same | behind
      · rw [same]
        exact List.mem_cons_self
      · exact List.mem_cons_of_mem first (ih (List.mem_filter.mp behind).1)

theorem firsts_snoc (fields : List (String × IndexedSelection))
    (field : String × IndexedSelection) :
    firsts (fields ++ [field]) =
      if field.1 ∈ (firsts fields).map Prod.fst then firsts fields
      else firsts fields ++ [field] := by
  induction fields with
  | nil => rfl
  | cons first rest ih =>
      have others : field.1 ∈ ((firsts rest).filter fun other => other.1 ≠ first.1).map Prod.fst ↔
          field.1 ∈ (firsts rest).map Prod.fst ∧ field.1 ≠ first.1 := by
        simp only [List.mem_map, List.mem_filter, decide_eq_true_eq]
        constructor
        · rintro ⟨other, ⟨member, apart⟩, same⟩
          exact ⟨⟨other, member, same⟩, by rw [← same]; exact apart⟩
        · rintro ⟨⟨other, member, same⟩, apart⟩
          exact ⟨other, ⟨member, by rw [same]; exact apart⟩, same⟩
      rw [List.cons_append, firsts, ih, firsts]
      simp only [List.map_cons, List.mem_cons, others]
      by_cases same : field.1 = first.1
      · have dropped : [field].filter (fun other => other.1 ≠ first.1) = [] := by
          simp only [List.filter_cons, List.filter_nil, same, ne_eq, not_true_eq_false,
            decide_false, Bool.false_eq_true, if_false]
        rw [if_pos (Or.inl same)]
        split
        · rfl
        · rw [List.filter_append, dropped, List.append_nil]
      · have kept : [field].filter (fun other => other.1 ≠ first.1) = [field] := by
          simp only [List.filter_cons, List.filter_nil, ne_eq, same, not_false_eq_true,
            decide_true, if_true]
        simp only [ne_eq, same, not_false_eq_true, and_true, false_or]
        split
        · rfl
        · simp only [ne_eq] at kept
          rw [List.filter_append, kept, List.cons_append]

theorem behind_agrees (calls : List Call) : (behind calls).Agrees := by
  induction calls using List.reverseRecOn with
  | nil => exact agrees_new
  | append_singleton calls call ih =>
      rw [behind_snoc]
      exact ih.withField _ _

theorem behind_fields (calls : List Call) :
    (behind calls).fields = firsts (calls.map Call.field) := by
  induction calls using List.reverseRecOn with
  | nil => rfl
  | append_singleton calls call ih =>
      rw [behind_snoc, (behind_agrees calls).withField_fields, List.map_append, List.map_singleton,
        firsts_snoc, ← ih]
      rfl

theorem call_of_field {calls : List Call} (member : (name, selection) ∈ (behind calls).fields) :
    ∃ call ∈ calls, call.field = (name, selection) := by
  rw [behind_fields] at member
  exact List.mem_map.mp (mem_of_firsts member)

/-! ### Groups inside -/

theorem Built.agrees (built : group.Built) : group.Agrees := by
  cases built with
  | byCalls calls inner => exact behind_agrees calls

theorem Built.child (built : group.Built) {child : IndexedGroup}
    (member : (name, .nested child) ∈ group.fields) : child.Built := by
  cases built with
  | byCalls calls inner =>
      obtain ⟨call, made, field⟩ := call_of_field member
      exact inner call made child (by rw [field])

theorem built_new : new.Built :=
  .byCalls [] fun _ made => absurd made List.not_mem_nil

theorem Built.withField (built : group.Built) (name : String) (selection : IndexedSelection)
    (inner : ∀ child, selection = .nested child → child.Built) :
    (group.withField name selection).Built := by
  cases built with
  | byCalls calls deeper =>
      have all : ∀ call ∈ calls ++ [.withField name selection], ∀ child,
          call.field.2 = .nested child → child.Built := by
        intro call made child field
        rcases List.mem_append.mp made with earlier | last
        · exact deeper call earlier child field
        · rw [List.mem_singleton.mp last] at field
          exact inner child field
      have added := Built.byCalls _ all
      rw [behind_snoc] at added
      exact added

theorem Built.plain (built : group.Built) : group.plain.Built := by
  induction built with
  | byCalls calls inner ih =>
      induction calls using List.reverseRecOn with
      | nil => exact .empty
      | append_singleton calls call front =>
          have earlier := front
            (fun other made => inner other (List.mem_append_left _ made))
            (fun other made => ih other (List.mem_append_left _ made))
          rw [behind_snoc, (behind_agrees calls).plain_withField]
          cases wanted : call.field.2 with
          | leaf => exact earlier.leaf _
          | nested child =>
              have deeper := ih call (List.mem_append_right _ List.mem_cons_self) child wanted
              exact earlier.nested deeper _

theorem Built.plain_fresh (built : group.Built) (fresh : name ∉ group.plain.names)
    (selection : IndexedSelection) :
    (group.withField name selection).plain = group.plain.snoc name selection.plain := by
  rw [built.agrees.plain_withField, Group.withField_fresh fresh]

theorem Built.addAll {fields : Group} (distinct : fields.Distinct) (built : group.Built)
    (apart : ∀ name ∈ fields.names, name ∉ group.plain.names) :
    (group.addAll fields).Built ∧
      (group.addAll fields).plain.fields = group.plain.fields ++ fields.fields := by
  induction fields generalizing group with
  | empty => exact ⟨built, (List.append_nil _).symm⟩
  | leaf name rest ih =>
      obtain ⟨fresh, others⟩ := List.forall_mem_cons.mp apart
      have grown := built.plain_fresh fresh .leaf
      have further := Group.apart_snoc distinct.1 others .leaf
      obtain ⟨whole, fields⟩ := ih distinct.2 (built.withField name .leaf nofun) (grown ▸ further)
      rw [grown, Group.fields_snoc, List.append_assoc] at fields
      exact ⟨whole, fields⟩
  | nested name child rest inner ih =>
      obtain ⟨fresh, others⟩ := List.forall_mem_cons.mp apart
      obtain ⟨made, same⟩ := inner distinct.2.1 built_new fun _ _ => List.not_mem_nil
      have grown := built.plain_fresh fresh (.nested (IndexedGroup.addAll new child))
      rw [IndexedSelection.plain, Group.fields_inj same] at grown
      have further := Group.apart_snoc distinct.1 others (.nested child)
      have next := built.withField name (.nested (IndexedGroup.addAll new child)) fun _ field => by
        cases field
        exact made
      obtain ⟨whole, fields⟩ := ih distinct.2.2 next (grown ▸ further)
      rw [grown, Group.fields_snoc, List.append_assoc] at fields
      exact ⟨whole, fields⟩

theorem ofGroup_built {fields : Group} (distinct : fields.Distinct) :
    (ofGroup fields).Built ∧ (ofGroup fields).plain = fields := by
  have whole := built_new.addAll distinct fun _ _ => List.not_mem_nil
  exact ⟨whole.1, Group.fields_inj whole.2⟩

theorem sameFields_iff {fields others : List (String × IndexedSelection)}
    (inner : ∀ name child, (name, IndexedSelection.nested child) ∈ fields →
      ∀ other : IndexedGroup, other.Built → (child.same other = true ↔ child.plain = other.plain))
    (built : ∀ name child, (name, IndexedSelection.nested child) ∈ others → child.Built) :
    sameFields fields others = true ↔ plainFields fields = plainFields others := by
  induction fields generalizing others with
  | nil => cases others <;> simp [sameFields, plainFields]
  | cons field rest ih =>
      obtain ⟨name, selection⟩ := field
      cases others with
      | nil => simp [sameFields, plainFields]
      | cons other behind =>
          obtain ⟨otherName, wanted⟩ := other
          have further := ih
            (fun name child member => inner name child (List.mem_cons_of_mem _ member))
            (fun name child member => built name child (List.mem_cons_of_mem _ member))
          have first : selection.same wanted = true ↔ selection.plain = wanted.plain := by
            cases selection with
            | leaf => cases wanted <;> simp [IndexedSelection.same, IndexedSelection.plain]
            | nested child =>
                cases wanted with
                | leaf => simp [IndexedSelection.same, IndexedSelection.plain]
                | nested other =>
                    have deeper := inner _ child List.mem_cons_self other
                      (built _ other List.mem_cons_self)
                    simpa only [IndexedSelection.same, IndexedSelection.plain,
                      Selection.nested.injEq] using deeper
          simp only [sameFields, plainFields, Bool.and_eq_true, beq_iff_eq, List.cons.injEq,
            Prod.mk.injEq, further, first]

theorem beq_iff : (group == other) = true ↔
    sameFields group.fields other.fields = true ∧ (group.index == other.index) = true := by
  rcases group with ⟨fields, index⟩
  rcases other with ⟨others, places⟩
  change IndexedGroup.same _ _ = true ↔ _
  rw [same, Bool.and_eq_true]

theorem Built.same_iff (built : group.Built) (otherBuilt : other.Built) :
    (group == other) = true ↔ group.plain = other.plain := by
  induction built generalizing other with
  | byCalls calls inner ih =>
      have deeper : ∀ name child, (name, IndexedSelection.nested child) ∈ (behind calls).fields →
          ∀ wanted : IndexedGroup, wanted.Built →
            (child.same wanted = true ↔ child.plain = wanted.plain) := by
        intro name child member wanted wantedBuilt
        obtain ⟨call, made, field⟩ := call_of_field member
        exact ih call made child (by rw [field]) wantedBuilt
      have fields := sameFields_iff deeper fun _ _ => otherBuilt.child
      rw [plainFields_eq, plainFields_eq, ← plain_fields, ← plain_fields] at fields
      -- Each index is settled by its fields, so that the same fields have the same index.
      have index : (behind calls).plain = other.plain →
          ((behind calls).index == other.index) = true := by
        intro same
        refine (behind_agrees calls).index_beq otherBuilt.agrees ?_
        rw [← plain_names, same, plain_names]
      rw [beq_iff, fields]
      constructor
      · rintro ⟨same, _⟩
        exact Group.fields_inj same
      · intro same
        exact ⟨congrArg Group.fields same, index same⟩

/-- What calls make of a new group. Its fields are the first of every name, in the order of the
calls, and the index agrees with them; a field is turned away, and changes nothing, if its name is
known, and only then; a name is found at the position of its field, which is where a search of the
plain fields finds it; and nothing but the fields, down through the groups inside, tells two groups
apart. -/
theorem behind_indexed (calls : List Call)
    (inner : ∀ call ∈ calls, ∀ child, call.field.2 = .nested child → child.Built) :
    (behind calls).fields = firsts (calls.map Call.field) ∧ (behind calls).Agrees ∧
      (∀ name selection,
        (((behind calls).insert name selection).2 = false ↔ name ∈ (behind calls).names) ∧
        (((behind calls).insert name selection).1 = behind calls ↔ name ∈ (behind calls).names)) ∧
      (∀ name position selection,
        (behind calls).lookup name = some (position, selection) ↔
          (behind calls).fields[position]? = some (name, selection)) ∧
      (∀ name, (behind calls).plain.lookup name =
        ((behind calls).lookup name).map fun found => (found.1, found.2.plain)) ∧
      ∀ other : IndexedGroup, other.Built →
        ((behind calls == other) = true ↔ (behind calls).plain = other.plain) := by
  have agrees := behind_agrees calls
  refine ⟨behind_fields calls, agrees, fun name selection => ?_, fun _ _ _ => agrees.lookup,
    agrees.plain_lookup, fun other built => (Built.byCalls calls inner).same_iff built⟩
  by_cases known : name ∈ (behind calls).names
  · simp only [agrees.insert_of_mem known, known, and_self]
  · have grown : (behind calls).fields ++ [(name, selection)] ≠ (behind calls).fields :=
      fun same => List.cons_ne_nil _ _ (List.append_right_eq_self.mp same)
    simp only [agrees.insert_of_fresh known, known, Bool.true_eq_false, iff_false, true_and]
    exact fun same => grown (congrArg IndexedGroup.fields same)

/-- A second `"a"` is turned away, and so is a second `"c"` inside: the group is the same as one
that is built without them. -/
theorem behind_indexed_twice :
    let inside := behind [.insert "c" .leaf, .withField "c" (.nested new)]
    let group := behind [.withField "a" .leaf, .insert "b" (.nested inside), .insert "a" .leaf]
    let other := behind [.insert "a" .leaf, .withField "b" (.nested (behind [.insert "c" .leaf]))]
    group.fields = [("a", .leaf), ("b", .nested inside)] ∧ (group.insert "a" .leaf).2 = false ∧
      group.lookup "b" = some (1, .nested inside) ∧ (group == other) = true := by
  intro inside group other
  have plainBuilt : (behind [.insert "c" .leaf]).Built := built_new.withField "c" .leaf nofun
  have insideBuilt : inside.Built := plainBuilt.withField "c" _ fun _ same => by
    cases same
    exact built_new
  have leafBuilt : (behind [.insert "a" .leaf]).Built := built_new.withField "a" .leaf nofun
  have otherBuilt : other.Built := leafBuilt.withField "b" _ fun _ same => by
    cases same
    exact plainBuilt
  obtain ⟨fields, _, turned, found, _, same⟩ := behind_indexed
    [.withField "a" .leaf, .insert "b" (.nested inside), .insert "a" .leaf] (by
      simp only [List.forall_mem_cons, Call.field, reduceCtorEq, false_imp_iff, implies_true,
        IndexedSelection.nested.injEq, forall_eq', insideBuilt, List.not_mem_nil, and_self])
  have shown : group.fields = [("a", .leaf), ("b", .nested inside)] := fields.trans rfl
  have insidePlain : inside.plain = (behind [.insert "c" .leaf]).plain := by
    refine Group.fields_inj ?_
    rw [plain_fields, plain_fields, behind_fields, behind_fields]
    rfl
  refine ⟨shown, (turned "a" .leaf).1.mpr ?_, (found "b" 1 _).mpr ?_,
    (same other otherBuilt).mpr ?_⟩
  · rw [names]
    change "a" ∈ group.fields.map Prod.fst
    rw [shown]
    exact List.mem_cons_self
  · change group.fields[1]? = _
    rw [shown]
    rfl
  · refine Group.fields_inj ?_
    change group.plain.fields = _
    rw [plain_fields, plain_fields, shown, behind_fields]
    change _ = [("a", Selection.leaf), ("b", .nested (behind [.insert "c" .leaf]).plain)]
    rw [← insidePlain]
    rfl

end IndexedGroup
end JsonProjection
