import JsonProjection.Proofs.Selection.Compile
import JsonProjection.Proofs.Selection.Layout

/-!
Where the open groups of a state stand.

`nesting` counts the braces that a text leaves open. Inside the innermost open group they come in
pairs, and each field that the group has already is spelled in front of pairs only, so that no brace
between the two places opens or closes the group. Every lexeme keeps this up.
-/

namespace JsonProjection

/-! ### Pairs of braces -/

section Pairs

variable {α : Type} [DecidableEq α]

/-- How many pairs are open behind some items that begin inside `level` of them, unless the items
close one that is not open. -/
def nesting (opening closing : α) : Nat → List α → Option Nat
  | level, [] => some level
  | level, item :: rest =>
    if item = opening then nesting opening closing (level + 1) rest
    else if item = closing then
      if level = 0 then none else nesting opening closing (level - 1) rest
    else nesting opening closing level rest

def Paired (opening closing : α) (items : List α) : Prop :=
  nesting opening closing 0 items = some 0

variable {opening closing : α}

theorem nesting_open (level : Nat) (rest : List α) :
    nesting opening closing level (opening :: rest) = nesting opening closing (level + 1) rest :=
  if_pos rfl

theorem nesting_close (apart : opening ≠ closing) (level : Nat) (rest : List α) :
    nesting opening closing (level + 1) (closing :: rest) = nesting opening closing level rest := by
  rw [nesting, if_neg (Ne.symm apart), if_pos rfl, if_neg (Nat.succ_ne_zero level),
    Nat.add_sub_cancel]

theorem nesting_other {item : α} (noOpening : item ≠ opening) (noClosing : item ≠ closing)
    (level : Nat) (rest : List α) :
    nesting opening closing level (item :: rest) = nesting opening closing level rest := by
  rw [nesting, if_neg noOpening, if_neg noClosing]

theorem nesting_append (level : Nat) (first second : List α) :
    nesting opening closing level (first ++ second) =
      (nesting opening closing level first).bind fun level =>
        nesting opening closing level second := by
  induction first generalizing level with
  | nil => rfl
  | cons item rest ih =>
      rw [List.cons_append, nesting, nesting]
      by_cases opens : item = opening
      · rw [if_pos opens, if_pos opens, ih]
      by_cases closes : item = closing
      · rw [if_neg opens, if_pos closes, if_neg opens, if_pos closes]
        split
        · rfl
        · exact ih (level - 1)
      · rw [if_neg opens, if_neg closes, if_neg opens, if_neg closes, ih]

theorem nesting_raise {level last : Nat} {items : List α}
    (ends : nesting opening closing level items = some last) (more : Nat) :
    nesting opening closing (level + more) items = some (last + more) := by
  induction items generalizing level with
  | nil =>
      cases ends
      rfl
  | cons item rest ih =>
      rw [nesting] at ends ⊢
      by_cases opens : item = opening
      · rw [if_pos opens] at ends ⊢
        rw [Nat.add_right_comm]
        exact ih ends
      by_cases closes : item = closing
      · rw [if_neg opens, if_pos closes] at ends ⊢
        split at ends
        · cases ends
        · rename_i inside
          have some : level + more ≠ 0 := by omega
          have less : level + more - 1 = level - 1 + more := by omega
          rw [if_neg some, less]
          exact ih ends
      · rw [if_neg opens, if_neg closes] at ends ⊢
        exact ih ends

namespace Paired

theorem nil : Paired opening closing [] :=
  rfl

theorem append {first second : List α} (paired : Paired opening closing first)
    (others : Paired opening closing second) : Paired opening closing (first ++ second) := by
  rw [Paired, nesting_append, paired]
  exact others

theorem single {item : α} (noOpening : item ≠ opening) (noClosing : item ≠ closing) :
    Paired opening closing [item] := by
  rw [Paired, nesting_other noOpening noClosing]
  rfl

theorem pair (apart : opening ≠ closing) {inner : List α} (paired : Paired opening closing inner) :
    Paired opening closing (opening :: (inner ++ [closing])) := by
  have raised := nesting_raise paired 1
  rw [Paired, nesting_open, nesting_append, raised]
  exact nesting_close apart 0 []

end Paired
end Pairs

/-! ### Braces of a text -/

namespace Lexeme

theorem nesting_name {name : List Char} (chars : ∀ c ∈ name, isNameChar c = true) (level : Nat)
    (rest : List Char) : nesting '{' '}' level (name ++ rest) = nesting '{' '}' level rest := by
  have marks : isNameChar '{' = false ∧ isNameChar '}' = false := by decide +kernel
  have outside {c mark : Char} (inside : isNameChar c = true) (plain : isNameChar mark = false) :
      c ≠ mark := by
    rintro rfl
    rw [plain] at inside
    cases inside
  induction name with
  | nil => rfl
  | cons c others ih =>
      obtain ⟨inside, further⟩ := List.forall_mem_cons.mp chars
      rw [List.cons_append, nesting_other (outside inside marks.1) (outside inside marks.2),
        ih further]

theorem Layout.nests {place : Nat} {text : List Char} {entries : List (Lexeme × Nat)}
    (layout : Layout place text entries) (level : Nat) :
    nesting '{' '}' level text =
      nesting .openGroup .closeGroup level (entries.map Prod.fst) := by
  induction layout generalizing level with
  | nil => rfl
  | @blank place c rest entries blank _ ih =>
      have noOpening : c ≠ '{' := by
        rintro rfl
        exact absurd blank (by decide)
      have noClosing : c ≠ '}' := by
        rintro rfl
        exact absurd blank (by decide)
      rw [nesting_other noOpening noClosing, ih]
  | @name place first more rest entries chars _ _ ih =>
      rw [← List.cons_append, nesting_name chars, ih, List.map_cons,
        nesting_other Lexeme.noConfusion Lexeme.noConfusion]
  | @mark place c rest entries _ _ _ ih =>
      rw [List.map_cons]
      by_cases opens : c = '{'
      · subst opens
        rw [nesting_open, ih]
        exact (nesting_open level _).symm
      by_cases closes : c = '}'
      · subst closes
        cases level with
        | zero => rfl
        | succ level =>
            rw [nesting_close (by decide), ih]
            exact (nesting_close Lexeme.noConfusion level _).symm
      · have noOpening : ofChar c ≠ .openGroup := by
          unfold ofChar
          rw [if_neg opens, if_neg closes]
          split_ifs <;> exact Lexeme.noConfusion
        have noClosing : ofChar c ≠ .closeGroup := by
          unfold ofChar
          rw [if_neg opens, if_neg closes]
          split_ifs <;> exact Lexeme.noConfusion
        rw [nesting_other opens closes, nesting_other noOpening noClosing, ih]

end Lexeme

/-! ### The open groups of a state -/

namespace Query

variable {group : OpenGroup} {outer : List Waiting} {state next : State} {lexeme : Lexeme}
  {offset : Nat} {seen inside : List (Lexeme × Nat)}

def Balanced (entries : List (Lexeme × Nat)) : Prop :=
  Paired .openGroup .closeGroup (entries.map Prod.fst)

theorem Balanced.append {others : List (Lexeme × Nat)} (balanced : Balanced seen)
    (behind : Balanced others) : Balanced (seen ++ others) := by
  rw [Balanced, List.map_append]
  exact Paired.append balanced behind

theorem balanced_single (noOpening : lexeme ≠ .openGroup) (noClosing : lexeme ≠ .closeGroup) :
    Balanced [(lexeme, offset)] :=
  Paired.single noOpening noClosing

/-- The name is spelled among the lexemes, at the level where they end. -/
def Spelled (name : String) (entries : List (Lexeme × Nat)) : Prop :=
  ∃ before place behind, entries = before ++ (.name name.toList, place) :: behind ∧ Balanced behind

theorem Spelled.append {name : String} {others : List (Lexeme × Nat)} (spelled : Spelled name seen)
    (balanced : Balanced others) : Spelled name (seen ++ others) := by
  obtain ⟨before, place, behind, rfl, paired⟩ := spelled
  refine ⟨before, place, behind ++ others, ?_, paired.append balanced⟩
  rw [List.append_assoc, List.cons_append]

theorem spelled_name (name : String) (place : Nat) {others : List (Lexeme × Nat)}
    (balanced : Balanced others) : Spelled name (seen ++ (.name name.toList, place) :: others) :=
  ⟨seen, place, others, rfl, balanced⟩

/-- What stands behind the brace of an open group: pairs of braces, and the names of its fields. -/
structure Holds (group : OpenGroup) (inside : List (Lexeme × Nat)) : Prop where
  paired : Balanced inside
  spelled : ∀ name ∈ group.fields.names, Spelled name inside

/-- The lexemes that lead into an open group and those around it. -/
inductive Stands : OpenGroup → List Waiting → List (Lexeme × Nat) → Prop where
  | query {group : OpenGroup} {inside : List (Lexeme × Nat)} (holds : Holds group inside) :
      Stands group [] ((.openGroup, group.start) :: inside)
  | field {own : OpenGroup} {name : String} {outer : List Waiting} {seen : List (Lexeme × Nat)}
      {place : Nat} {group : OpenGroup} {inside : List (Lexeme × Nat)}
      (around : Stands own outer seen) (holds : Holds group inside) :
      Stands group (⟨own, name⟩ :: outer)
        (seen ++ (.name name.toList, place) :: (.openGroup, group.start) :: inside)

theorem holds_new (start : Nat) : Holds (OpenGroup.new start) [] :=
  ⟨Paired.nil, fun _ member => absurd member List.not_mem_nil⟩

theorem Holds.append {others : List (Lexeme × Nat)} (holds : Holds group inside)
    (balanced : Balanced others) : Holds group (inside ++ others) :=
  ⟨holds.paired.append balanced, fun name member => (holds.spelled name member).append balanced⟩

theorem Holds.add {others : List (Lexeme × Nat)} (holds : Holds group inside) (name : String)
    (place : Nat) (selection : Selection) (balanced : Balanced others) :
    Holds (group.add name selection) (inside ++ (.name name.toList, place) :: others) := by
  have single : Balanced [(Lexeme.name name.toList, place)] :=
    balanced_single Lexeme.noConfusion Lexeme.noConfusion
  have added : Balanced ((.name name.toList, place) :: others) := single.append balanced
  refine ⟨holds.paired.append added, fun own member => ?_⟩
  rw [OpenGroup.add, Group.names_snoc, List.mem_append, List.mem_singleton] at member
  rcases member with member | rfl
  · exact (holds.spelled own member).append added
  · exact spelled_name own place balanced

theorem Stands.innermost (stands : Stands group outer seen) :
    ∃ front inside, seen = front ++ (.openGroup, group.start) :: inside ∧ Holds group inside := by
  cases stands with
  | query holds => exact ⟨[], _, rfl, holds⟩
  | @field own name outer seen place _ inside around holds =>
      refine ⟨seen ++ [(.name name.toList, place)], inside, ?_, holds⟩
      rw [List.append_assoc, List.singleton_append]

theorem Stands.extend {group' : OpenGroup} {more : List (Lexeme × Nat)}
    (stands : Stands group outer seen) (start : group'.start = group.start)
    (holds : ∀ inside, Holds group inside → Holds group' (inside ++ more)) :
    Stands group' outer (seen ++ more) := by
  cases stands with
  | query own =>
      rw [List.cons_append, ← start]
      exact .query (holds _ own)
  | field around own =>
      rw [List.append_assoc, List.cons_append, List.cons_append, ← start]
      exact .field around (holds _ own)

def State.Stands : State → List (Lexeme × Nat) → Prop
  | .start, seen => seen = []
  | .fieldName group outer, seen => Query.Stands group outer seen
  | .afterName group name outer, seen =>
    ∃ before place, seen = before ++ [(.name name.toList, place)] ∧ Query.Stands group outer before
  | .separator group outer, seen => Query.Stands group outer seen
  | .done _, _ => True

theorem start_stands : State.start.Stands [] :=
  rfl

theorem Stands.closed (stands : Stands group outer seen) (place : Nat) :
    (closed group.fields outer).Stands (seen ++ [(.closeGroup, place)]) := by
  cases stands with
  | query => trivial
  | @field own name outer seen start _ inside around holds =>
      have pair : Balanced ((.openGroup, group.start) :: (inside ++ [(.closeGroup, place)])) := by
        rw [Balanced, List.map_cons, List.map_append]
        exact Paired.pair Lexeme.noConfusion holds.paired
      rw [List.append_assoc, List.cons_append, List.cons_append]
      exact around.extend rfl fun _ own => own.add name start (.nested group.fields) pair

theorem afterField_stands (stands : Stands group outer seen)
    (taken : afterField group outer lexeme offset = .ok next) :
    next.Stands (seen ++ [(lexeme, offset)]) := by
  unfold afterField at taken
  split at taken <;> cases taken
  · refine stands.extend rfl fun inside holds => holds.append ?_
    exact balanced_single Lexeme.noConfusion Lexeme.noConfusion
  · exact stands.closed offset

theorem push_stands (stands : state.Stands seen) (taken : state.push lexeme offset = .ok next) :
    next.Stands (seen ++ [(lexeme, offset)]) := by
  unfold State.push at taken
  cases state with
  | start =>
      obtain rfl : seen = [] := stands
      cases lexeme <;> cases taken
      exact .query (holds_new offset)
  | fieldName group outer =>
      cases lexeme with
      | name chars =>
          dsimp only at taken
          split at taken <;> cases taken
          refine ⟨seen, offset, ?_, stands⟩
          rw [String.toList_ofList]
      | _ => cases taken
  | afterName group name outer =>
      obtain ⟨before, place, rfl, around⟩ := stands
      by_cases opens : lexeme = .openGroup
      · subst opens
        cases taken
        rw [List.append_assoc]
        exact .field around (holds_new offset)
      · have named : Query.Stands (group.add name .leaf) outer
            (before ++ [(.name name.toList, place)]) :=
          around.extend rfl fun inside holds => holds.add name place .leaf Paired.nil
        refine afterField_stands named ?_
        cases lexeme with
        | openGroup => exact absurd rfl opens
        | _ => exact taken
  | separator group outer => exact afterField_stands stands taken
  | done group => cases taken

theorem run_stands {entries : List (Lexeme × Nat)} (stands : state.Stands seen)
    (taken : state.run entries = .ok next) : next.Stands (seen ++ entries) := by
  induction entries generalizing state seen with
  | nil =>
      cases taken
      rw [List.append_nil]
      exact stands
  | cons entry rest ih =>
      unfold State.run at taken
      split at taken
      · cases taken
      · rename_i pushed
        have further := ih (push_stands stands pushed) taken
        rw [List.append_assoc, List.singleton_append] at further
        exact further

end Query
end JsonProjection
