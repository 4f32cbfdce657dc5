import JsonProjection.Proofs.Selection.Nesting
import Mathlib.Algebra.GroupWithZero.Nat
import Mathlib.Algebra.Order.BigOperators.Group.List
import Mathlib.Algebra.Order.Group.Nat

/-!
Where the error of a text that is no query points.

Each state can still be led to a query: a field that is missing gets a name longer than those of its
group, and every open group is closed. So the text in front of a lexeme that is refused is the
beginning of a query. The text goes on with the first character of that lexeme, and whatever follows
that, a lexeme of its kind is refused again.
-/

namespace JsonProjection

/-- The text is the beginning of a query. -/
def Viable (text : String) : Prop :=
  ∃ rest group, compile (text ++ rest) = .ok group

/-- A whole name stands behind one text and in front of another. -/
structure Grammar.Whole (name : String) (front text behind : List Char) : Prop where
  named : Named name text behind
  begins : ∀ c ∈ front.getLast?, Lexeme.isNameChar c = false

/-- What an error says of a text that falls apart at the offset of the error. -/
def SyntaxError.Points (before after : String) : SyntaxError → Prop
  | .unexpected none _ _ =>
    Viable before ∧ after = "" ∧ ∀ c ∈ before.toList, Text.isBlank c = true
  | .unexpected (some c) _ _ =>
    Viable before ∧ after.toList.head? = some c ∧ ¬ Viable (before.push c)
  | .unterminated _ =>
    Viable (before ++ after) ∧ ∃ inside, after.toList = '{' :: inside ∧ Paired '{' '}' inside
  | .duplicate name _ =>
    Viable before ∧ (∃ behind, Grammar.Whole name before.toList after.toList behind) ∧
      ∃ front text middle, before.toList = front ++ text ∧ Grammar.Whole name front text middle ∧
        Paired '{' '}' middle
  | .trailing _ =>
    (∃ group, compile before = .ok group) ∧
      ∃ c rest, after.toList = c :: rest ∧ Text.isBlank c = false

namespace Lexeme

theorem Layout.named {place : Nat} {text name : List Char} {back : List (Lexeme × Nat)}
    (layout : Layout place text ((.name name, place) :: back))
    (solid : ∀ c ∈ text.head?, Text.isBlank c = false) :
    ∃ behind, Grammar.Named (String.ofList name) text behind ∧
      Layout (place + Text.width name) behind back := by
  generalize whole : (Lexeme.name name, place) :: back = entries at layout
  cases layout with
  | nil => cases whole
  | blank blank _ =>
      rw [solid _ rfl] at blank
      cases blank
  | @name _ first more rest _ chars longest behind =>
      cases whole
      refine ⟨rest, ⟨?_, ?_, ?_, ?_⟩, behind⟩
      · rw [String.toList_ofList]
        exact List.cons_ne_nil first more
      · rw [String.toList_ofList]
        exact chars
      · rintro c others rfl
        exact longest c rfl
      · rw [String.toList_ofList]
        rfl
  | @mark _ c _ _ _ _ _ =>
      injection whole with same
      exact absurd (congrArg Prod.fst same).symm (ofChar_ne_name c name)

theorem Layout.opened {place : Nat} {text : List Char} {back : List (Lexeme × Nat)}
    (layout : Layout place text ((.openGroup, place) :: back))
    (solid : ∀ c ∈ text.head?, Text.isBlank c = false) :
    ∃ rest, text = '{' :: rest ∧ Layout (place + '{'.utf8Size) rest back := by
  generalize whole : (Lexeme.openGroup, place) :: back = entries at layout
  cases layout with
  | nil => cases whole
  | blank blank _ =>
      rw [solid _ rfl] at blank
      cases blank
  | name => cases whole
  | @mark _ c rest _ _ _ behind =>
      injection whole with same others
      have head := congrArg (head? ∘ Prod.fst) same
      rw [Function.comp_apply, Function.comp_apply, head?_ofChar] at head
      cases head
      exact ⟨rest, rfl, others ▸ behind⟩

theorem scan_append {first second : List Char} (apart : Apart first second) :
    ∃ others, Layout (Text.width first) second others ∧
      scan (first ++ second) = scan first ++ others := by
  obtain ⟨others, layout⟩ := exists_layout (Text.width first) second
  refine ⟨others, layout, ((layout_scan first).append apart ?_).scan⟩
  rw [Nat.zero_add]
  exact layout

end Lexeme

namespace Query

open Lexeme (Apart Layout Falls isNameChar ofChar scan)

variable {group : OpenGroup} {outer : List Waiting} {state next : State} {lexeme : Lexeme}
  {offset : Nat}

theorem run_append {first second : List (Lexeme × Nat)} (taken : state.run first = .ok next) :
    state.run (first ++ second) = next.run second := by
  induction first generalizing state with
  | nil =>
      cases taken
      rfl
  | cons entry rest ih =>
      unfold State.run at taken
      split at taken
      · cases taken
      · rename_i pushed
        rw [List.cons_append, run_cons pushed, ih taken]

/-! ### Every state can be completed -/

theorem closers_layout (count place : Nat) :
    ∃ entries, entries.map Prod.fst = List.replicate count .closeGroup ∧
      Layout place (List.replicate count '}') entries := by
  induction count generalizing place with
  | zero => exact ⟨[], rfl, .nil place⟩
  | succ count ih =>
      obtain ⟨entries, same, layout⟩ := ih (place + '}'.utf8Size)
      refine ⟨(.closeGroup, place) :: entries, ?_, ?_⟩
      · rw [List.map_cons, same, List.replicate_succ]
      · exact .mark (c := '}') (by decide +kernel) (by decide) layout

theorem run_closers (group : OpenGroup) (outer : List Waiting) {entries : List (Lexeme × Nat)}
    (closers : entries.map Prod.fst = List.replicate (outer.length + 1) .closeGroup) :
    ∃ last, (State.separator group outer).run entries = .ok (.done last) := by
  induction outer generalizing group entries with
  | nil =>
      obtain ⟨⟨_, offset⟩, rest, rfl, rfl, none⟩ := List.map_eq_cons_iff.mp closers
      obtain rfl := List.map_eq_nil_iff.mp none
      exact ⟨group.fields, rfl⟩
  | cons waiting outer ih =>
      obtain ⟨⟨_, offset⟩, rest, rfl, rfl, others⟩ := List.map_eq_cons_iff.mp closers
      have closed : (State.separator group (waiting :: outer)).push .closeGroup offset =
          .ok (.separator (waiting.group.add waiting.name (.nested group.fields)) outer) := rfl
      rw [run_cons closed]
      exact ih _ others

def OpenGroup.freshName (group : OpenGroup) : List Char :=
  List.replicate ((group.fields.names.map String.length).sum + 1) 'a'

theorem OpenGroup.freshName_fresh (group : OpenGroup) :
    group.fields.contains (String.ofList group.freshName) = false := by
  rw [Group.contains_eq_false]
  intro member
  have bounded : (String.ofList group.freshName).length ≤ _ :=
    List.le_sum_of_mem (List.mem_map_of_mem member)
  rw [String.length_ofList, freshName, List.length_replicate] at bounded
  exact Nat.not_succ_le_self _ bounded

def State.rest : State → List Char
  | .start => ['{', 'a', '}']
  | .fieldName group outer => group.freshName ++ List.replicate (outer.length + 1) '}'
  | .afterName _ _ outer => List.replicate (outer.length + 1) '}'
  | .separator _ outer => List.replicate (outer.length + 1) '}'
  | .done _ => []

def State.Completes (state : State) (text : List Char) : Prop :=
  ∀ place, ∃ entries last, Layout place text entries ∧ state.run entries = .ok (.done last)

theorem separator_completes (group : OpenGroup) (outer : List Waiting) :
    (State.separator group outer).Completes (List.replicate (outer.length + 1) '}') := by
  intro place
  obtain ⟨entries, closers, layout⟩ := closers_layout (outer.length + 1) place
  obtain ⟨last, read⟩ := run_closers group outer closers
  exact ⟨entries, last, layout, read⟩

theorem afterName_completes (group : OpenGroup) (name : String) (outer : List Waiting) :
    (State.afterName group name outer).Completes (List.replicate (outer.length + 1) '}') := by
  intro place
  obtain ⟨entries, closers, layout⟩ := closers_layout (outer.length + 1) place
  obtain ⟨last, read⟩ := run_closers (group.add name .leaf) outer closers
  refine ⟨entries, last, layout, (run_afterName group name outer ?_ ?_).trans read⟩
  · rintro rfl
    cases closers
  · intro others opens
    rw [closers, List.replicate_succ] at opens
    injection opens with same
    cases same

theorem fieldName_completes (group : OpenGroup) (outer : List Waiting) :
    (State.fieldName group outer).Completes
      (group.freshName ++ List.replicate (outer.length + 1) '}') := by
  intro place
  obtain ⟨entries, last, layout, read⟩ := afterName_completes group (.ofList group.freshName) outer
    (place + Text.width group.freshName)
  have named : (State.fieldName group outer).push (.name group.freshName) place =
      .ok (.afterName group (.ofList group.freshName) outer) := by
    simp only [State.push, group.freshName_fresh, Bool.false_eq_true, if_false]
  refine ⟨(.name group.freshName, place) :: entries, last, ?_, (run_cons named).trans read⟩
  refine .name (fun c member => ?_) (fun c head => ?_) layout
  · have letter : c = 'a' := List.eq_of_mem_replicate (n := _ + 1) member
    rw [letter]
    decide +kernel
  · cases head
    decide +kernel

theorem rest_completes (state : State) : state.Completes state.rest := by
  cases state with
  | start =>
      intro place
      obtain ⟨entries, last, layout, read⟩ := fieldName_completes (OpenGroup.new place) []
        (place + '{'.utf8Size)
      refine ⟨(.openGroup, place) :: entries, last, ?_, read⟩
      exact .mark (c := '{') (by decide +kernel) (by decide) layout
  | fieldName group outer => exact fieldName_completes group outer
  | afterName group name outer => exact afterName_completes group name outer
  | separator group outer => exact separator_completes group outer
  | done group => exact fun place => ⟨[], group, .nil place, rfl⟩

theorem viable_of_run {text : List Char} (taken : State.start.run (scan text) = .ok state) :
    Viable (String.ofList text) := by
  obtain ⟨entries, last, layout, read⟩ := rest_completes state (0 + Text.width text + ' '.utf8Size)
  have whole : Layout 0 (text ++ ' ' :: state.rest) (scan text ++ entries) :=
    (Lexeme.layout_scan text).append (Apart.of_blank (by decide) text state.rest)
      (.blank (by decide) layout)
  refine ⟨String.ofList (' ' :: state.rest), last, compile_eq_ok.mpr ?_⟩
  rw [← String.ofList_append, String.toList_ofList, whole.scan, run_append taken, read]

/-! ### Lexemes that are refused -/

/-- Lexemes that a text may go on with behind the same character. -/
def Alike (first second : Lexeme) : Prop :=
  first = second ∨ ∃ name name', first = .name name ∧ second = .name name'

/-- Why a state refuses a lexeme. An unexpected one is refused whatever follows its first
character. -/
inductive Refusal : State → Lexeme → Nat → SyntaxError → Prop where
  | unexpected {state : State} {lexeme : Lexeme} {offset : Nat} (expected : QueryPart)
      (always : ∀ other, Alike lexeme other → ∀ place, ∃ error,
        state.push other place = .error error) :
      Refusal state lexeme offset (.unexpected lexeme.head? expected offset)
  | duplicate {group : OpenGroup} {outer : List Waiting} {chars : List Char} {offset : Nat}
      (known : String.ofList chars ∈ group.fields.names) :
      Refusal (.fieldName group outer) (.name chars) offset (.duplicate (.ofList chars) offset)
  | trailing {group : Group} {lexeme : Lexeme} {offset : Nat} :
      Refusal (.done group) lexeme offset (.trailing offset)

theorem afterField_refused {error : SyntaxError}
    (refused : afterField group outer lexeme offset = .error error) :
    error = .unexpected lexeme.head? .separator offset ∧ ∀ other, Alike lexeme other →
      ∀ (group : OpenGroup) (outer : List Waiting) (place : Nat), ∃ error,
        afterField group outer other place = .error error := by
  unfold afterField at refused
  split at refused <;> cases refused
  rename_i noComma noClose
  refine ⟨rfl, ?_⟩
  rintro other (rfl | ⟨name, name', -, rfl⟩) own around place
  · unfold afterField
    split
    · exact absurd rfl noComma
    · exact absurd rfl noClose
    · exact ⟨_, rfl⟩
  · exact ⟨_, rfl⟩

theorem push_refusal {error : SyntaxError} (refused : state.push lexeme offset = .error error) :
    Refusal state lexeme offset error := by
  cases state with
  | start =>
      cases lexeme <;> cases refused
      all_goals
        refine .unexpected .groupStart ?_
        rintro other (rfl | ⟨name, name', -, rfl⟩) place <;> exact ⟨_, rfl⟩
  | fieldName group outer =>
      cases lexeme with
      | name chars =>
          unfold State.push at refused
          dsimp only at refused
          split at refused <;> cases refused
          rename_i known
          refine .duplicate (by_contra fun fresh => ?_)
          rw [Group.contains_eq_false.mpr fresh] at known
          cases known
      | _ =>
          cases refused
          refine .unexpected .fieldName ?_
          rintro other (rfl | ⟨name, name', same, -⟩) place
          · exact ⟨_, rfl⟩
          · cases same
  | afterName group name outer =>
      have opens : lexeme ≠ .openGroup := by
        rintro rfl
        cases refused
      have behind : afterField (group.add name .leaf) outer lexeme offset = .error error := by
        cases lexeme with
        | openGroup => exact absurd rfl opens
        | _ => exact refused
      obtain ⟨rfl, always⟩ := afterField_refused behind
      refine .unexpected .separator fun other alike place => ?_
      obtain ⟨error, refusedToo⟩ := always other alike (group.add name .leaf) outer place
      refine ⟨error, ?_⟩
      cases other with
      | openGroup =>
          rcases alike with same | ⟨_, _, _, impossible⟩
          · exact absurd same opens
          · cases impossible
      | _ => exact refusedToo
  | separator group outer =>
      obtain ⟨rfl, always⟩ := afterField_refused refused
      exact .unexpected .separator fun other alike => always other alike group outer
  | done group =>
      cases refused
      exact .trailing

theorem run_error {entries : List (Lexeme × Nat)} {error : SyntaxError}
    (failed : state.run entries = .error error) :
    ∃ front lexeme offset back last, entries = front ++ (lexeme, offset) :: back ∧
      state.run front = .ok last ∧ Refusal last lexeme offset error := by
  induction entries generalizing state with
  | nil => cases failed
  | cons entry rest ih =>
      unfold State.run at failed
      split at failed
      · rename_i own pushed
        cases failed
        exact ⟨[], entry.1, entry.2, rest, state, rfl, rfl, push_refusal pushed⟩
      · rename_i next pushed
        obtain ⟨front, lexeme, offset, back, last, rfl, taken, refusal⟩ := ih failed
        exact ⟨entry :: front, lexeme, offset, back, last, rfl, (run_cons pushed).trans taken,
          refusal⟩

/-! ### The place of an error -/

variable {text before after : List Char} {front back : List (Lexeme × Nat)}

theorem first_alike {c : Char} {rest rest' : List Char} {place place' : Nat}
    {entry : Lexeme × Nat} {others others' : List (Lexeme × Nat)}
    (layout : Layout place (c :: rest) (entry :: others)) (solid : Text.isBlank c = false)
    (layout' : Layout place' (c :: rest') others') :
    ∃ other behind, others' = (other, place') :: behind ∧ Alike entry.1 other := by
  obtain ⟨lexeme, own, same, -, kind⟩ := layout.first solid
  obtain ⟨other, behind, rfl, -, kind'⟩ := layout'.first solid
  injection same with same
  subst same
  refine ⟨other, behind, rfl, ?_⟩
  rcases kind with ⟨⟨more, rfl⟩, inside⟩ | ⟨rfl, outside⟩
  · rcases kind' with ⟨⟨more', rfl⟩, -⟩ | ⟨-, outside⟩
    · exact Or.inr ⟨_, _, rfl, rfl⟩
    · rw [inside] at outside
      cases outside
  · rcases kind' with ⟨-, inside⟩ | ⟨rfl, -⟩
    · rw [inside] at outside
      cases outside
    · exact Or.inl rfl

theorem not_viable (falls : Falls 0 text front (lexeme, offset) back before after)
    (taken : State.start.run front = .ok state)
    (always : ∀ other, Alike lexeme other → ∀ place, ∃ error,
      state.push other place = .error error) :
    ∃ c, after.head? = some c ∧ lexeme.head? = some c ∧
      ¬ Viable ((String.ofList before).push c) := by
  cases rest : after with
  | nil =>
      have none := falls.back
      rw [rest] at none
      cases none
  | cons c behind =>
      have layout : Layout offset (c :: behind) ((lexeme, offset) :: back) := rest ▸ falls.back
      have solid : Text.isBlank c = false := falls.solid c (by rw [rest]; rfl)
      obtain ⟨own, _, same, head, -⟩ := layout.first solid
      cases same
      refine ⟨c, rfl, head, ?_⟩
      rintro ⟨more, group, compiled⟩
      have apart : Apart before (c :: more.toList) := fun d same inside =>
        falls.apart d (by rw [rest]; exact same) inside
      have spelled : ((String.ofList before).push c ++ more).toList =
          before ++ c :: more.toList := by
        rw [String.toList_append, String.toList_push, String.toList_ofList, List.append_assoc,
          List.singleton_append]
      obtain ⟨others, layout', scanned⟩ := Lexeme.scan_append apart
      obtain ⟨other, further, rfl, alike⟩ := first_alike layout solid layout'
      obtain ⟨error, refused⟩ := always other alike _
      have read := compile_eq_ok.mp compiled
      rw [spelled, scanned, falls.front.scan, run_append taken, State.run, refused] at read
      cases read

/-- A name among the lexemes of a text stands there as a whole, and pairs of braces behind it. -/
theorem whole_of_falls {name : String} {place : Nat}
    (falls : Falls 0 text front (.name name.toList, place) back before after) :
    ∃ behind, Grammar.Whole name before after behind ∧
      Layout (place + Text.width name.toList) behind back := by
  obtain ⟨behind, named, layout⟩ := falls.back.named falls.solid
  rw [String.ofList_toList] at named
  refine ⟨behind, ⟨named, fun c last => ?_⟩, layout⟩
  rcases spelling : name.toList with _ | ⟨d, more⟩
  · exact absurd spelling named.nonempty
  · have inside := named.chars d (by rw [spelling]; exact List.mem_cons_self)
    refine falls.apart d ?_ inside c last
    rw [named.spelled, spelling]
    rfl

theorem whole_of_spelled {name : String} {entries inside : List (Lexeme × Nat)}
    (layout : Layout 0 text entries) (around : entries = front ++ inside)
    (spelled : Spelled name inside) :
    ∃ before after behind, text = before ++ after ∧ Grammar.Whole name before after behind ∧
      Paired '{' '}' behind := by
  obtain ⟨lead, place, others, rfl, paired⟩ := spelled
  rw [around, ← List.append_assoc] at layout
  obtain ⟨before, after, falls⟩ := layout.falls
  obtain ⟨behind, whole, rest⟩ := whole_of_falls falls
  exact ⟨before, after, behind, falls.split, whole, (rest.nests 0).trans paired⟩

theorem brace_of_stands {entries : List (Lexeme × Nat)} (layout : Layout 0 text entries)
    (stands : Stands group outer entries) :
    ∃ before inside, text = before ++ '{' :: inside ∧ Text.width before = group.start ∧
      Paired '{' '}' inside := by
  obtain ⟨front, inside, rfl, holds⟩ := stands.innermost
  obtain ⟨before, after, falls⟩ := layout.falls
  obtain ⟨rest, rfl, behind⟩ := falls.back.opened falls.solid
  refine ⟨before, rest, falls.split, ?_, (behind.nests 0).trans holds.paired⟩
  exact (falls.offset.trans (Nat.zero_add _)).symm

theorem finish_error {error : SyntaxError} {length : Nat} {seen : List (Lexeme × Nat)}
    (stands : state.Stands seen) (failed : state.finish length = .error error) :
    (error = .unexpected none .groupStart length ∧ seen = []) ∨
      ∃ group outer, error = .unterminated group.start ∧ Stands group outer seen := by
  cases state with
  | start =>
      cases failed
      exact Or.inl ⟨rfl, stands⟩
  | fieldName group outer =>
      cases failed
      exact Or.inr ⟨group, outer, rfl, stands⟩
  | afterName group name outer =>
      cases failed
      obtain ⟨before, place, rfl, around⟩ := stands
      refine Or.inr ⟨group, outer, rfl, around.extend rfl fun inside holds => holds.append ?_⟩
      exact balanced_single Lexeme.noConfusion Lexeme.noConfusion
  | separator group outer =>
      cases failed
      exact Or.inr ⟨group, outer, rfl, stands⟩
  | done group => cases failed

theorem refusal_points {error : SyntaxError}
    (falls : Falls 0 text front (lexeme, offset) back before after)
    (taken : State.start.run front = .ok state) (refusal : Refusal state lexeme offset error) :
    error.offset = offset ∧ error.Points (.ofList before) (.ofList after) := by
  have read : State.start.run (scan before) = .ok state := by
    rw [falls.front.scan]
    exact taken
  have viable : Viable (.ofList before) := viable_of_run read
  cases refusal with
  | unexpected expected always =>
      obtain ⟨c, first, head, stuck⟩ := not_viable falls taken always
      rw [head]
      refine ⟨rfl, viable, ?_, stuck⟩
      rw [String.toList_ofList]
      exact first
  | @duplicate group outer chars _ known =>
      have stands : Stands group outer front := run_stands start_stands taken
      obtain ⟨lead, inside, around, holds⟩ := stands.innermost
      have spelled := holds.spelled _ known
      rw [← String.toList_ofList (l := chars)] at falls
      obtain ⟨behind, whole, -⟩ := whole_of_falls falls
      rw [List.append_cons] at around
      obtain ⟨first, text, middle, split, earlier, paired⟩ :=
        whole_of_spelled falls.front around spelled
      refine ⟨rfl, viable, ⟨behind, ?_⟩, first, text, middle, ?_, earlier, paired⟩
      · rw [String.toList_ofList, String.toList_ofList]
        exact whole
      · rw [String.toList_ofList]
        exact split
  | @trailing group =>
      refine ⟨rfl, ⟨group, compile_eq_ok.mpr ?_⟩, ?_⟩
      · rw [String.toList_ofList]
        exact read
      · cases rest : after with
        | nil =>
            have none := falls.back
            rw [rest] at none
            cases none
        | cons c behind =>
            refine ⟨c, behind, String.toList_ofList, falls.solid c ?_⟩
            rw [rest]
            rfl

end Query

open Query

/-- The error of a text that is no query points at the end of the longest beginning of a query:
at the character that no query goes on with, behind the query, at a name that its group has already,
or at the innermost group that is left open. -/
theorem compile_error_points {query : String} {error : SyntaxError}
    (failed : compile query = .error error) :
    ∃ before after, query = before ++ after ∧ before.utf8ByteSize = error.offset ∧
      error.Points before after := by
  have layout := Lexeme.layout_scan query.toList
  unfold compile at failed
  split at failed
  · rename_i own stopped
    cases failed
    obtain ⟨front, lexeme, offset, back, last, entries, taken, refusal⟩ := run_error stopped
    rw [entries] at layout
    obtain ⟨before, after, falls⟩ := layout.falls
    obtain ⟨same, points⟩ := refusal_points falls taken refusal
    refine ⟨.ofList before, .ofList after, ?_, ?_, points⟩
    · rw [← String.ofList_append, ← falls.split, String.ofList_toList]
    · rw [Text.width_eq, same]
      exact (falls.offset.trans (Nat.zero_add _)).symm
  · rename_i state read
    have stands : state.Stands (Lexeme.scan query.toList) := run_stands start_stands read
    have viable : Viable query := by
      have own := viable_of_run read
      rw [String.ofList_toList] at own
      exact own
    rcases finish_error stands failed with ⟨rfl, none⟩ | ⟨group, outer, rfl, stands⟩
    · rw [none] at layout
      exact ⟨query, "", String.append_empty.symm, rfl, viable, rfl, layout.blanks⟩
    · obtain ⟨before, inside, split, width, paired⟩ := brace_of_stands layout stands
      have whole : query = .ofList before ++ .ofList ('{' :: inside) := by
        rw [← String.ofList_append, ← split, String.ofList_toList]
      refine ⟨_, _, whole, (Text.width_eq before).trans width, whole ▸ viable, inside, ?_, paired⟩
      exact String.toList_ofList

set_option maxRecDepth 20000 in
/-- The second `c` is one too many in the inner group. -/
theorem compile_error_points_duplicate :
    let query := "\x7b é, c, b \x7b c, d \x7b c \x7d, c \x7d"
    let error : SyntaxError := .duplicate "c" 25
    compile query = .error error ∧ ∃ before after, query = before ++ after ∧
      before.utf8ByteSize = error.offset ∧ error.Points before after :=
  ⟨rfl, compile_error_points rfl⟩

end JsonProjection
