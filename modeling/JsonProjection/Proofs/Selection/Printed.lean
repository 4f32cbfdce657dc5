import JsonProjection.Proofs.Selection.Compile
import JsonProjection.Proofs.Selection.Layout

/-!
Groups written as queries and read back.

A group's text spells the lexemes of the group, with one space at most between two of them, so that
it is read back as the group. Whatever a query asks for can be written in this way, and the lexemes
of the query alone settle what it asks for.
-/

namespace JsonProjection

open Lexeme (isNameChar ofText_blank ofText_mark)

/-! ### Names -/

namespace Grammar

/-- A name that a query can spell: characters of names, at least one. -/
structure IsName (name : String) : Prop where
  nonempty : name.toList ≠ []
  chars : ∀ c ∈ name.toList, isNameChar c = true

def EndsName (behind : List Char) : Prop :=
  ∀ c rest, behind = c :: rest → isNameChar c = false

theorem EndsName.of_outside {c : Char} (outside : isNameChar c = false) (rest : List Char) :
    EndsName (c :: rest) := by
  intro d others same
  rw [← (List.cons.inj same).1]
  exact outside

theorem IsName.ofText {name : String} (isName : IsName name) {behind : List Char}
    (ends : EndsName behind) :
    Lexeme.ofText none (name.toList ++ behind) =
      .name name.toList :: Lexeme.ofText none behind :=
  Named.ofText ⟨isName.nonempty, isName.chars, ends, rfl⟩

end Grammar

namespace Group

open Grammar (EndsName IsName)

def Named : Group → Prop
  | .empty => True
  | .leaf name rest => IsName name ∧ rest.Named
  | .nested name child rest => IsName name ∧ child.Named ∧ rest.Named

/-- A group that can be built and that a query can ask for: it has a field, so has every group
inside it, and all names can be spelled. -/
structure Writable (group : Group) : Prop where
  built : group.Built
  nonempty : group ≠ .empty
  filled : group.Filled
  named : group.Named

/-! ### The lexemes of a written group -/

variable {group : Group} {behind : List Char}

theorem fieldChars_endsName (fields : Group) (ends : EndsName behind) :
    EndsName (fields.fieldChars false behind) := by
  have comma : isNameChar ',' = false := by decide +kernel
  cases fields with
  | empty => exact ends
  | leaf name rest => exact .of_outside comma _
  | nested name child rest => exact .of_outside comma _

theorem ofText_separator (first : Bool) (behind : List Char) :
    Lexeme.ofText none ((if first then [] else [',', ' ']) ++ behind) =
      (if first then [] else [.comma]) ++ Lexeme.ofText none behind := by
  cases first with
  | true => rfl
  | false =>
      have comma : Lexeme.ofText none (',' :: ' ' :: behind) =
          .comma :: Lexeme.ofText none (' ' :: behind) :=
        ofText_mark (by decide +kernel) (by decide) _
      exact comma.trans (congrArg _ (ofText_blank (by decide) behind))

theorem ofText_open (behind : List Char) :
    Lexeme.ofText none ('{' :: ' ' :: behind) = .openGroup :: Lexeme.ofText none behind := by
  have brace : Lexeme.ofText none ('{' :: ' ' :: behind) =
      .openGroup :: Lexeme.ofText none (' ' :: behind) :=
    ofText_mark (by decide +kernel) (by decide) _
  exact brace.trans (congrArg _ (ofText_blank (by decide) behind))

theorem ofText_close (behind : List Char) :
    Lexeme.ofText none (' ' :: '}' :: behind) = .closeGroup :: Lexeme.ofText none behind :=
  (ofText_blank (by decide) _).trans (ofText_mark (by decide +kernel) (by decide) behind)

theorem Named.ofText (named : group.Named) (first : Bool) (ends : EndsName behind) :
    Lexeme.ofText none (group.fieldChars first behind) =
      group.lexemes first (Lexeme.ofText none behind) := by
  -- The text behind a field begins with a comma, or it is the one behind all fields.
  induction group generalizing first behind with
  | empty => rfl
  | leaf name rest later =>
      obtain ⟨isName, others⟩ := named
      rw [fieldChars, ofText_separator, isName.ofText (rest.fieldChars_endsName ends),
        later others false ends]
      rfl
  | nested name child rest inner later =>
      obtain ⟨isName, within, others⟩ := named
      have space : isNameChar ' ' = false := by decide +kernel
      rw [fieldChars, ofText_separator, isName.ofText (.of_outside space _),
        ofText_blank (by decide), ofText_open, inner within true (.of_outside space _),
        ofText_close, later others false ends]
      rfl

theorem Named.scan_text (named : group.Named) :
    (Lexeme.scan group.text.toList).map Prod.fst = (Grammar.Part.group group).lexemes [] := by
  have space : isNameChar ' ' = false := by decide +kernel
  rw [Lexeme.scan_lexemes, text, String.toList_ofList, ofText_open,
    named.ofText true (.of_outside space _), ofText_close]
  rfl

theorem Writable.compiles (writable : group.Writable) : compile group.text = .ok group := by
  rw [compile_eq_ok, Query.run_eq_done]
  exact ⟨writable.named.scan_text, ⟨writable.nonempty, writable.filled⟩, writable.built.distinct⟩

end Group

/-! ### Groups that a query asks for -/

namespace Grammar

def Part.Named : Part → Prop
  | .group whole => whole.Named
  | .field name .leaf => IsName name
  | .field name (.nested child) => IsName name ∧ child.Named
  | .others fields => fields.Named

theorem named_cons {name : String} {selection : Selection} {rest : Group}
    (field : (Part.field name selection).Named) (others : rest.Named) :
    (Group.cons name selection rest).Named := by
  cases selection with
  | leaf => exact ⟨field, others⟩
  | nested child => exact ⟨field.1, field.2, others⟩

theorem Derives.named {part : Part} {text behind : List Char}
    (derives : Derives part text behind) : part.Named := by
  induction derives with
  | group _ _ _ _ field others => exact named_cons field others
  | leaf named => exact ⟨named.nonempty, named.chars⟩
  | nested named _ _ inner => exact ⟨⟨named.nonempty, named.chars⟩, inner⟩
  | close => trivial
  | comma _ _ _ _ field others => exact named_cons field others

end Grammar

theorem compile_scan {query : String} {group : Group} (compiled : compile query = .ok group) :
    (Lexeme.scan query.toList).map Prod.fst = (Grammar.Part.group group).lexemes [] :=
  (Query.run_eq_done.mp (compile_eq_ok.mp compiled)).1

theorem compile_writable {query : String} {group : Group} (compiled : compile query = .ok group) :
    group.Writable := by
  obtain ⟨scanned, ⟨nonempty, filled⟩, distinct⟩ :=
    Query.run_eq_done.mp (compile_eq_ok.mp compiled)
  rw [Lexeme.scan_lexemes] at scanned
  obtain ⟨_, _, -, derives, -⟩ := Grammar.spells_iff.mpr ⟨scanned, nonempty, filled⟩
  exact ⟨distinct.built, nonempty, filled, derives.named⟩

/-- The texts fall into the same names and marks, in the same order. White space apart, they are
the same then. -/
def Lexeme.Agree (text other : List Char) : Prop :=
  ∃ entries entries' : List (Lexeme × Nat), Layout 0 text entries ∧ Layout 0 other entries' ∧
    entries.map Prod.fst = entries'.map Prod.fst

theorem Lexeme.agree_iff {text other : List Char} :
    Agree text other ↔ (scan text).map Prod.fst = (scan other).map Prod.fst := by
  constructor
  · rintro ⟨entries, entries', layout, layout', same⟩
    rw [layout.scan, layout'.scan]
    exact same
  · exact fun same => ⟨_, _, layout_scan text, layout_scan other, same⟩

theorem compile_agree {query other : String} {group group' : Group}
    (compiled : compile query = .ok group) (compiled' : compile other = .ok group') :
    group = group' ↔ Lexeme.Agree query.toList other.toList := by
  rw [Lexeme.agree_iff, compile_scan compiled, compile_scan compiled']
  constructor
  · rintro rfl
    rfl
  · exact fun same => (Group.lexemes_inj (List.cons_eq_cons.mp same).2).1

/-- Writing a group and reading a query are inverse. A group that can be written is read back from
its text, so that no two of them have the same text; what a query asks for can be written; and two
queries ask for the same exactly if they are the same names and marks in the same order. -/
theorem compile_text :
    (∀ group : Group, group.Writable → compile group.text = .ok group) ∧
      (∀ (query : String) (group : Group), compile query = .ok group →
        group.Writable ∧ compile group.text = .ok group) ∧
      (∀ group other : Group, group.Writable → other.Writable → group.text = other.text →
        group = other) ∧
      ∀ (query other : String) (group group' : Group), compile query = .ok group →
        compile other = .ok group' →
          (group = group' ↔ Lexeme.Agree query.toList other.toList) := by
  refine ⟨fun group writable => writable.compiles, ?_, ?_, ?_⟩
  · intro query group compiled
    have writable := compile_writable compiled
    exact ⟨writable, writable.compiles⟩
  · intro group other writable writable' same
    have read := writable.compiles
    rw [same, writable'.compiles] at read
    exact (Except.ok.inj read).symm
  · exact fun query other group group' => compile_agree

set_option maxRecDepth 20000 in
/-- White space may stand between names and marks, or not. The order of the fields counts. -/
theorem compile_text_spaced :
    let query := "\u00A0\x7b é\t,b\x7bc\x7d\x7d"
    let group : Group := .leaf "é" (.nested "b" (.leaf "c" .empty) .empty)
    group.text = "\x7b é, b \x7b c \x7d \x7d" ∧ compile group.text = .ok group ∧
      (∀ other : Group, other.Writable → other.text = group.text → other = group) ∧
      Lexeme.Agree query.toList group.text.toList ∧
      ¬ Lexeme.Agree query.toList "\x7bb\x7bc\x7d,é\x7d".toList := by
  intro query group
  obtain ⟨written, asked, injective, agree⟩ := compile_text
  have compiled : compile "\u00A0\x7b é\t,b\x7bc\x7d\x7d" =
      .ok (.leaf "é" (.nested "b" (.leaf "c" .empty) .empty)) := rfl
  have swapped : compile "\x7bb\x7bc\x7d,é\x7d" =
      .ok (.nested "b" (.leaf "c" .empty) (.leaf "é" .empty)) := rfl
  obtain ⟨writable, back⟩ := asked query group compiled
  refine ⟨rfl, written group writable, fun other writable' => injective other group writable'
    writable, (agree _ _ _ _ compiled back).mp rfl, fun same => ?_⟩
  cases (agree _ _ _ _ compiled swapped).mpr same

end JsonProjection
