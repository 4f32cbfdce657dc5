import JsonProjection.Proofs.Selection.Grammar
import JsonProjection.Selection.Query

/-!
A query is read exactly if the grammar derives it.

A state stands for the lexemes that lead to it: what it still keeps open, spelled out. Each lexeme
that is taken is added to these, so that nothing but a spelling of the result is read to its end.
Conversely a group whose names differ is read from its lexemes, field by field.
-/

namespace JsonProjection

namespace Group

def append : Group → Group → Group
  | .empty, other => other
  | .leaf name rest, other => .leaf name (rest.append other)
  | .nested name child rest, other => .nested name child (rest.append other)

theorem snoc_append (group : Group) (name : String) (selection : Selection) (other : Group) :
    (group.snoc name selection).append other = group.append (cons name selection other) := by
  induction group with
  | empty => cases selection <;> rfl
  | leaf first rest ih => exact congrArg (leaf first) ih
  | nested first child rest _ ih => exact congrArg (nested first child) ih

theorem append_empty (group : Group) : group.append .empty = group := by
  induction group with
  | empty => rfl
  | leaf first rest ih => exact congrArg (leaf first) ih
  | nested first child rest _ ih => exact congrArg (nested first child) ih

theorem snoc_ne_empty (group : Group) (name : String) (selection : Selection) :
    group.snoc name selection ≠ .empty := by
  cases group with
  | empty => cases selection <;> exact Group.noConfusion
  | leaf first rest => exact Group.noConfusion
  | nested first child rest => exact Group.noConfusion

theorem Filled.snoc {group : Group} (filled : group.Filled) (name : String)
    {selection : Selection}
    (inner : ∀ child, selection = .nested child → child ≠ .empty ∧ child.Filled) :
    (group.snoc name selection).Filled := by
  induction group with
  | empty =>
      cases selection with
      | leaf => trivial
      | nested child => exact ⟨(inner child rfl).1, (inner child rfl).2, trivial⟩
  | leaf first rest ih => exact ih filled
  | nested first child rest _ ih => exact ⟨filled.1, filled.2.1, ih filled.2.2⟩

theorem lexemes_snoc (group : Group) (first : Bool) (name : String) (selection : Selection)
    (behind : List Lexeme) :
    (group.snoc name selection).lexemes first behind =
      group.lexemes first ((if first && group.isEmpty then [] else [.comma]) ++
        .name name.toList :: selection.lexemes behind) := by
  induction group generalizing first with
  | empty =>
      rw [snoc, lexemes_cons]
      cases first <;> rfl
  | leaf own rest ih =>
      simp only [snoc, lexemes, ih, Bool.false_and, isEmpty, fields, List.isEmpty_cons,
        Bool.and_false]
  | nested own child rest _ ih =>
      simp only [snoc, lexemes, ih, Bool.false_and, isEmpty, fields, List.isEmpty_cons,
        Bool.and_false]

end Group

namespace Query

variable {group : OpenGroup} {outer : List Waiting} {state next : State} {lexeme : Lexeme}
  {offset : Nat}

/-! ### What a state has read -/

def OpenGroup.lexemes (group : OpenGroup) (behind : List Lexeme) : List Lexeme :=
  .openGroup :: group.fields.lexemes true
    ((if group.fields.isEmpty then [] else [.comma]) ++ behind)

def around : List Waiting → List Lexeme → List Lexeme
  | [], behind => behind
  | ⟨group, name⟩ :: outer, behind => around outer (group.lexemes (.name name.toList :: behind))

def State.lexemes : State → List Lexeme → List Lexeme
  | .start, behind => behind
  | .fieldName group outer, behind => around outer (group.lexemes behind)
  | .afterName group name outer, behind =>
    around outer (group.lexemes (.name name.toList :: behind))
  | .separator group outer, behind => around outer (.openGroup :: group.fields.lexemes true behind)
  | .done group, behind => (Grammar.Part.group group).lexemes behind

def OpenGroup.Sound (group : OpenGroup) : Prop :=
  group.fields.Distinct ∧ group.fields.Filled

structure Waiting.Sound (waiting : Waiting) : Prop where
  group : waiting.group.Sound
  fresh : waiting.name ∉ waiting.group.fields.names

/-- The groups of a state have no name twice and no group without fields inside. A name that was
read is a new one. -/
def State.Sound : State → Prop
  | .start => True
  | .fieldName group outer => group.Sound ∧ ∀ waiting ∈ outer, waiting.Sound
  | .afterName group name outer =>
    (Waiting.mk group name).Sound ∧ ∀ waiting ∈ outer, waiting.Sound
  | .separator group outer =>
    group.fields ≠ .empty ∧ group.Sound ∧ ∀ waiting ∈ outer, waiting.Sound
  | .done group => group.Distinct ∧ (Grammar.Part.group group).Filled

theorem OpenGroup.lexemes_add (group : OpenGroup) (name : String) (selection : Selection)
    (behind : List Lexeme) :
    .openGroup :: (group.add name selection).fields.lexemes true behind =
      group.lexemes (.name name.toList :: selection.lexemes behind) := by
  rw [add, Group.lexemes_snoc, Bool.true_and]
  rfl

theorem OpenGroup.lexemes_of_nonempty (nonempty : group.fields ≠ .empty) (behind : List Lexeme) :
    group.lexemes behind = .openGroup :: group.fields.lexemes true (.comma :: behind) := by
  have some : group.fields.isEmpty = false := by
    rcases fields : group.fields with _ | _ | _
    · exact absurd fields nonempty
    · rfl
    · rfl
  rw [OpenGroup.lexemes, some]
  rfl

theorem Waiting.Sound.add {name : String} (sound : (Waiting.mk group name).Sound)
    (selection : Selection)
    (inner : ∀ child, selection = .nested child →
      child.Distinct ∧ (Grammar.Part.group child).Filled) :
    (group.add name selection).fields ≠ .empty ∧ (group.add name selection).Sound := by
  refine ⟨Group.snoc_ne_empty _ _ _, ?_, ?_⟩
  · exact sound.group.1.snoc sound.fresh fun child same => (inner child same).1
  · exact sound.group.2.snoc name fun child same => (inner child same).2

theorem closed_lexemes (group : Group) (outer : List Waiting) (behind : List Lexeme) :
    (closed group outer).lexemes behind =
      around outer ((Grammar.Part.group group).lexemes behind) := by
  rcases outer with _ | ⟨⟨own, name⟩, outer⟩
  · rfl
  · exact congrArg (around outer) (own.lexemes_add name (.nested group) behind)

theorem closed_sound {group : Group} (distinct : group.Distinct)
    (filled : (Grammar.Part.group group).Filled)
    (outside : ∀ waiting ∈ outer, waiting.Sound) : (closed group outer).Sound := by
  rcases outer with _ | ⟨⟨own, name⟩, outer⟩
  · exact ⟨distinct, filled⟩
  · obtain ⟨first, others⟩ := List.forall_mem_cons.mp outside
    have added := first.add (.nested group) fun child same => by
      cases same
      exact ⟨distinct, filled⟩
    exact ⟨added.1, added.2, others⟩

/-- What a step does to the lexemes that a state stands for. -/
structure Reads (state : State) (lexeme : Lexeme) (next : State) : Prop where
  sound : next.Sound
  lexemes : ∀ behind, next.lexemes behind = state.lexemes (lexeme :: behind)

theorem afterField_reads (sound : (State.separator group outer).Sound)
    (taken : afterField group outer lexeme offset = .ok next) :
    Reads (.separator group outer) lexeme next := by
  obtain ⟨nonempty, own, outside⟩ := sound
  unfold afterField at taken
  split at taken <;> cases taken
  · refine ⟨⟨own, outside⟩, fun behind => ?_⟩
    exact congrArg (around outer) (OpenGroup.lexemes_of_nonempty nonempty behind)
  · exact ⟨closed_sound own.1 ⟨nonempty, own.2⟩ outside, closed_lexemes _ outer⟩

theorem push_reads (sound : state.Sound) (taken : state.push lexeme offset = .ok next) :
    Reads state lexeme next := by
  have fresh : (OpenGroup.new offset).Sound := ⟨trivial, trivial⟩
  unfold State.push at taken
  cases state with
  | start =>
      cases lexeme <;> cases taken
      exact ⟨⟨fresh, fun _ => List.not_mem_nil.elim⟩, fun _ => rfl⟩
  | fieldName group outer =>
      cases lexeme with
      | name chars =>
          dsimp only at taken
          split at taken <;> cases taken
          rename_i other
          have new := Group.contains_eq_false.mp (Bool.eq_false_iff.mpr other)
          refine ⟨⟨⟨sound.1, new⟩, sound.2⟩, fun behind => ?_⟩
          simp only [State.lexemes, String.toList_ofList]
      | _ => cases taken
  | afterName group name outer =>
      obtain ⟨own, outside⟩ := sound
      by_cases opens : lexeme = .openGroup
      · subst opens
        cases taken
        exact ⟨⟨fresh, List.forall_mem_cons.mpr ⟨own, outside⟩⟩, fun _ => rfl⟩
      · have leaf := own.add .leaf fun child same => by cases same
        have behindField : afterField (group.add name .leaf) outer lexeme offset = .ok next := by
          cases lexeme with
          | openGroup => exact absurd rfl opens
          | _ => exact taken
        have reads := afterField_reads ⟨leaf.1, leaf.2, outside⟩ behindField
        refine ⟨reads.sound, fun behind => (reads.lexemes behind).trans ?_⟩
        exact congrArg (around outer) (group.lexemes_add name .leaf (lexeme :: behind))
  | separator group outer => exact afterField_reads sound taken
  | done group => cases taken

theorem run_reads {entries : List (Lexeme × Nat)} {last : State} (sound : state.Sound)
    (taken : state.run entries = .ok last) :
    last.Sound ∧ ∀ behind, last.lexemes behind = state.lexemes (entries.map Prod.fst ++ behind) := by
  induction entries generalizing state with
  | nil =>
      cases taken
      exact ⟨sound, fun _ => rfl⟩
  | cons entry rest ih =>
      unfold State.run at taken
      split at taken
      · cases taken
      · rename_i next pushed
        have reads := push_reads sound pushed
        obtain ⟨lastSound, lexemes⟩ := ih reads.sound taken
        refine ⟨lastSound, fun behind => ?_⟩
        rw [lexemes, reads.lexemes]
        rfl

/-! ### Reading a group -/

theorem run_cons {entry : Lexeme × Nat} {rest : List (Lexeme × Nat)}
    (pushed : state.push entry.1 entry.2 = .ok next) :
    state.run (entry :: rest) = next.run rest := by
  rw [State.run, pushed]

theorem run_afterName (group : OpenGroup) (name : String) (outer : List Waiting)
    {entries : List (Lexeme × Nat)} (more : entries ≠ [])
    (leaf : ∀ others, entries.map Prod.fst ≠ .openGroup :: others) :
    (State.afterName group name outer).run entries =
      (State.separator (group.add name .leaf) outer).run entries := by
  rcases entries with _ | ⟨⟨lexeme, offset⟩, rest⟩
  · exact absurd rfl more
  · cases lexeme with
    | openGroup => exact absurd rfl (leaf _)
    | _ => rfl

/-- How fields are read from their lexemes: all of a group's, or those behind its first ones. -/
structure Read (fields : Group) : Prop where
  whole : ∀ (group : OpenGroup) (outer : List Waiting) (entries : List (Lexeme × Nat))
    (others : List Lexeme), fields ≠ .empty → (∀ name ∈ fields.names, name ∉ group.fields.names) →
      entries.map Prod.fst = fields.lexemes true (.closeGroup :: others) →
        ∃ later, later.map Prod.fst = others ∧ (State.fieldName group outer).run entries =
          (closed (group.fields.append fields) outer).run later
  others : ∀ (group : OpenGroup) (outer : List Waiting) (entries : List (Lexeme × Nat))
    (others : List Lexeme), (∀ name ∈ fields.names, name ∉ group.fields.names) →
      entries.map Prod.fst = fields.lexemes false (.closeGroup :: others) →
        ∃ later, later.map Prod.fst = others ∧ (State.separator group outer).run entries =
          (closed (group.fields.append fields) outer).run later

variable {name : String} {selection : Selection} {rest : Group}

theorem read_field (inner : ∀ child, selection = .nested child → child ≠ .empty ∧ Read child)
    (later : Read rest) (apart : name ∉ rest.names) (group : OpenGroup) (outer : List Waiting)
    {entries : List (Lexeme × Nat)} {others : List Lexeme}
    (fresh : ∀ own ∈ (Group.cons name selection rest).names, own ∉ group.fields.names)
    (spelled : entries.map Prod.fst =
      .name name.toList :: selection.lexemes (rest.lexemes false (.closeGroup :: others))) :
    ∃ behind, behind.map Prod.fst = others ∧ (State.fieldName group outer).run entries =
      (closed (group.fields.append (.cons name selection rest)) outer).run behind := by
  have names : (Group.cons name selection rest).names = name :: rest.names :=
    congrArg (List.map Prod.fst) (Group.fields_cons name selection rest)
  rw [names] at fresh
  obtain ⟨new, freshLater⟩ := List.forall_mem_cons.mp fresh
  obtain ⟨⟨_, offset⟩, afterName, rfl, rfl, spelledAfter⟩ := List.map_eq_cons_iff.mp spelled
  have named : (State.fieldName group outer).push (.name name.toList) offset =
      .ok (.afterName group name outer) := by
    simp only [State.push, String.ofList_toList, Group.contains_eq_false.mpr new,
      Bool.false_eq_true, if_false]
  -- However the field goes on, the others are read behind it.
  suffices ∃ entries', entries'.map Prod.fst = rest.lexemes false (.closeGroup :: others) ∧
      (State.afterName group name outer).run afterName =
        (State.separator (group.add name selection) outer).run entries' by
    obtain ⟨entries', spelledLater, reached⟩ := this
    have stillFresh : ∀ own ∈ rest.names, own ∉ (group.add name selection).fields.names := by
      intro own member
      rw [OpenGroup.add, Group.names_snoc, List.mem_append, List.mem_singleton]
      exact not_or.mpr ⟨freshLater own member, fun same => apart (same ▸ member)⟩
    obtain ⟨behind, same, read⟩ := later.others (group.add name selection) outer entries' others
      stillFresh spelledLater
    refine ⟨behind, same, ?_⟩
    rw [run_cons named, reached, read, OpenGroup.add, Group.snoc_append]
  cases selection with
  | leaf =>
      refine ⟨afterName, spelledAfter, run_afterName group name outer ?_ ?_⟩
      · rintro rfl
        exact Group.lexemes_ne_nil rest _ _ spelledAfter.symm
      · intro own opens
        exact Group.lexemes_ne_open rest others own (spelledAfter.symm.trans opens)
  | nested child =>
      obtain ⟨nonempty, reads⟩ := inner child rfl
      obtain ⟨⟨_, start⟩, inside, rfl, rfl, spelledInside⟩ := List.map_eq_cons_iff.mp spelledAfter
      obtain ⟨entries', same, read⟩ := reads.whole (OpenGroup.new start)
        (⟨group, name⟩ :: outer) inside _ nonempty (fun _ _ => List.not_mem_nil) spelledInside
      have opened : (State.afterName group name outer).push .openGroup start =
          .ok (.fieldName (OpenGroup.new start) (⟨group, name⟩ :: outer)) := rfl
      exact ⟨entries', same, (run_cons opened).trans read⟩

theorem read_cons (selection : Selection)
    (inner : ∀ child, selection = .nested child → child ≠ .empty ∧ Read child)
    (later : Read rest) (apart : name ∉ rest.names) : Read (.cons name selection rest) := by
  constructor
  case whole =>
    intro group outer entries others _ fresh spelled
    rw [Group.lexemes_cons] at spelled
    exact read_field inner later apart group outer fresh spelled
  case others =>
    intro group outer entries others fresh spelled
    rw [Group.lexemes_cons] at spelled
    obtain ⟨⟨_, offset⟩, behind, rfl, rfl, spelledBehind⟩ := List.map_eq_cons_iff.mp spelled
    have separated : (State.separator group outer).push .comma offset =
        .ok (.fieldName group outer) := rfl
    rw [run_cons separated]
    exact read_field inner later apart group outer fresh spelledBehind

theorem read_of_distinct {fields : Group} (distinct : fields.Distinct) (filled : fields.Filled) :
    Read fields := by
  -- A nested group is read as a whole, and the fields behind it as others.
  induction fields with
  | empty =>
      constructor
      case whole => exact fun _ _ _ _ nonempty => absurd rfl nonempty
      case others =>
        intro group outer entries others _ spelled
        obtain ⟨⟨_, offset⟩, behind, rfl, rfl, same⟩ := List.map_eq_cons_iff.mp spelled
        have ended : (State.separator group outer).push .closeGroup offset =
            .ok (closed group.fields outer) := rfl
        exact ⟨behind, same, (run_cons ended).trans (by rw [Group.append_empty])⟩
  | leaf name rest later =>
      exact read_cons .leaf (fun _ same => by cases same)
        (later distinct.2 filled) distinct.1
  | nested name child rest inner later =>
      refine read_cons (.nested child) (fun _ same => ?_)
        (later distinct.2.2 filled.2.2) distinct.1
      cases same
      exact ⟨filled.1, inner distinct.2.1 filled.2.1⟩

/-- The states read a group from its lexemes, and from no others. -/
theorem run_eq_done {entries : List (Lexeme × Nat)} {group : Group} :
    State.start.run entries = .ok (.done group) ↔
      entries.map Prod.fst = (Grammar.Part.group group).lexemes [] ∧
        (Grammar.Part.group group).Filled ∧ group.Distinct := by
  constructor
  · intro taken
    have sound : State.start.Sound := trivial
    obtain ⟨⟨distinct, filled⟩, lexemes⟩ := run_reads sound taken
    have spelled := lexemes []
    rw [List.append_nil] at spelled
    exact ⟨spelled.symm, filled, distinct⟩
  · rintro ⟨spelled, ⟨nonempty, filled⟩, distinct⟩
    obtain ⟨⟨_, offset⟩, inside, rfl, rfl, spelledInside⟩ := List.map_eq_cons_iff.mp spelled
    obtain ⟨later, none, read⟩ := (read_of_distinct distinct filled).whole (OpenGroup.new offset) []
      inside [] nonempty (fun _ _ => List.not_mem_nil) spelledInside
    obtain rfl := List.map_eq_nil_iff.mp none
    have opened : State.start.push .openGroup offset =
        .ok (.fieldName (OpenGroup.new offset) []) := rfl
    rw [run_cons opened, read]
    rfl

end Query

theorem compile_eq_ok {query : String} {group : Group} :
    compile query = .ok group ↔
      Query.State.run .start (Lexeme.scan query.toList) = .ok (.done group) := by
  unfold compile
  split
  · rename_i error taken
    rw [taken]
    constructor <;> intro same <;> cases same
  · rename_i state taken
    rw [taken]
    cases state with
    | done own =>
        constructor
        · intro same
          cases same
          rfl
        · intro same
          cases same
          rfl
    | _ => constructor <;> intro same <;> cases same

theorem compile_built {query : String} {group : Group} (compiled : compile query = .ok group) :
    group.Built := by
  obtain ⟨-, -, distinct⟩ := Query.run_eq_done.mp (compile_eq_ok.mp compiled)
  exact distinct.built

/-- A query is read as a group exactly if it spells the group, with white space anywhere between
names and marks, and no group in it has a name twice. A query spells one group at most. -/
theorem compile_spells (query : String) (group : Group) :
    (compile query = .ok group ↔ Grammar.Spells query.toList group ∧ group.Distinct) ∧
      ∀ other, Grammar.Spells query.toList group → Grammar.Spells query.toList other →
        other = group := by
  constructor
  · rw [compile_eq_ok, Query.run_eq_done, Lexeme.scan_lexemes, Grammar.spells_iff, and_assoc]
  · intro other spells spellsOther
    have same := (Grammar.spells_iff.mp spellsOther).1.symm.trans (Grammar.spells_iff.mp spells).1
    exact (Group.lexemes_inj (List.cons_eq_cons.mp same).2).1

set_option maxRecDepth 20000 in
/-- White space need not be that of a keyboard, and letters need not be Latin. -/
theorem compile_spells_nested :
    let query := "\u00A0\x7b é\t,b\x7bc\x7d\x7d"
    let group : Group := .leaf "é" (.nested "b" (.leaf "c" .empty) .empty)
    Grammar.Spells query.toList group ∧ group.Distinct ∧
      ∀ other, Grammar.Spells query.toList other → other = group := by
  have spells := compile_spells "\u00A0\x7b é\t,b\x7bc\x7d\x7d"
    (.leaf "é" (.nested "b" (.leaf "c" .empty) .empty))
  obtain ⟨spelled, distinct⟩ := spells.1.mp rfl
  exact ⟨spelled, distinct, fun other => spells.2 other spelled⟩

end JsonProjection
