import JsonProjection.Proofs.Selection.Distinct
import JsonProjection.Selection.Lexeme
import Mathlib.Data.List.TakeWhile

/-!
The grammar of queries.

`Derives` says which text spells a part of a selection in front of what follows it. The rules leave
white space to the text, so that a part has many spellings; its lexemes are the same in all of them.
Read the other way, lexemes of a part come from a derivation of it.
-/

namespace JsonProjection

def Group.Filled : Group → Prop
  | .empty => True
  | .leaf _ rest => rest.Filled
  | .nested _ child rest => child ≠ .empty ∧ child.Filled ∧ rest.Filled

namespace Grammar

def Blanks (text behind : List Char) : Prop :=
  ∃ blanks : List Char, (∀ c ∈ blanks, Text.isBlank c = true) ∧ text = blanks ++ behind

/-- A name in front of `behind`: characters of names, at least one, and as many as there are. -/
structure Named (name : String) (text behind : List Char) : Prop where
  nonempty : name.toList ≠ []
  chars : ∀ c ∈ name.toList, Lexeme.isNameChar c = true
  longest : ∀ c rest, behind = c :: rest → Lexeme.isNameChar c = false
  spelled : text = name.toList ++ behind

/-- What the rules derive: a group, a field, or the fields of a group behind its first one with the
brace that closes it. -/
inductive Part where
  | group (group : Group)
  | field (name : String) (selection : Selection)
  | others (fields : Group)

/-- The text is a spelling of the part in front of `behind`. -/
inductive Derives : Part → List Char → List Char → Prop where
  | group {name : String} {selection : Selection} {rest : Group}
      {inside first after others behind : List Char} (gap : Blanks inside first)
      (field : Derives (.field name selection) first after) (gap' : Blanks after others)
      (closed : Derives (.others rest) others behind) :
      Derives (.group (.cons name selection rest)) ('{' :: inside) behind
  | leaf {name : String} {text behind : List Char} (named : Named name text behind) :
      Derives (.field name .leaf) text behind
  | nested {name : String} {child : Group} {text after inner behind : List Char}
      (named : Named name text after) (gap : Blanks after inner)
      (group : Derives (.group child) inner behind) :
      Derives (.field name (.nested child)) text behind
  | close {behind : List Char} : Derives (.others .empty) ('}' :: behind) behind
  | comma {name : String} {selection : Selection} {rest : Group}
      {inside next after others behind : List Char} (gap : Blanks inside next)
      (field : Derives (.field name selection) next after) (gap' : Blanks after others)
      (closed : Derives (.others rest) others behind) :
      Derives (.others (.cons name selection rest)) (',' :: inside) behind

/-- The text spells the group, with white space around it. -/
def Spells (text : List Char) (group : Group) : Prop :=
  ∃ front behind, Blanks text front ∧ Derives (.group group) front behind ∧ Blanks behind []

end Grammar

/-! ### Lexemes of a text -/

namespace Lexeme

def ofName? : Option (List Char) → List Lexeme
  | none => []
  | some latest => [.name latest.reverse]

def ofText : Option (List Char) → List Char → List Lexeme
  | name?, [] => ofName? name?
  | name?, c :: rest =>
    if isNameChar c then ofText (some (c :: name?.getD [])) rest
    else if Text.isBlank c then ofName? name? ++ ofText none rest
    else ofName? name? ++ ofChar c :: ofText none rest

theorem ofText_cons (name? : Option (List Char)) (c : Char) (rest : List Char) :
    ofText name? (c :: rest) =
      if isNameChar c then ofText (some (c :: name?.getD [])) rest
      else if Text.isBlank c then ofName? name? ++ ofText none rest
      else ofName? name? ++ ofChar c :: ofText none rest :=
  rfl

theorem foldl_push (scanner : Scanner) (text : List Char) :
    ((text.foldl Scanner.push scanner).flush.reverse).map Prod.fst =
      scanner.latest.reverse.map Prod.fst ++ ofText (scanner.name?.map Prod.snd) text := by
  have flushed (scanner : Scanner) : scanner.flush.reverse.map Prod.fst =
      scanner.latest.reverse.map Prod.fst ++ ofName? (scanner.name?.map Prod.snd) := by
    obtain ⟨offset, _ | ⟨start, name⟩, latest⟩ := scanner
    · exact (List.append_nil _).symm
    · simp only [Scanner.flush, List.reverse_cons, List.map_append]
      rfl
  induction text generalizing scanner with
  | nil => exact flushed scanner
  | cons c rest ih =>
      rw [List.foldl_cons, ih, ofText_cons]
      unfold Scanner.push
      by_cases inside : isNameChar c = true
      · simp only [if_pos inside]
        rcases scanner.name? with _ | ⟨start, name⟩ <;> rfl
      by_cases blank : Text.isBlank c = true
      · simp only [if_neg inside, if_pos blank, flushed, List.append_assoc]
        rfl
      · simp only [if_neg inside, if_neg blank, List.reverse_cons, List.map_append, flushed,
          List.append_assoc]
        rfl

theorem scan_lexemes (text : List Char) : (scan text).map Prod.fst = ofText none text :=
  foldl_push ⟨0, none, []⟩ text

theorem head?_ofChar (c : Char) : (ofChar c).head? = some c := by
  by_cases opens : c = '{'
  · rw [opens]
    rfl
  by_cases closes : c = '}'
  · rw [closes]
    rfl
  by_cases separates : c = ','
  · rw [separates]
    rfl
  · rw [ofChar, if_neg opens, if_neg closes, if_neg separates]
    rfl

theorem ofChar_ne_name (c : Char) (chars : List Char) : ofChar c ≠ .name chars := by
  unfold ofChar
  split_ifs <;> exact Lexeme.noConfusion

theorem isNameChar_of_isBlank {c : Char} (blank : Text.isBlank c = true) :
    isNameChar c = false := by
  let codes := List.range' 9 5 ++ List.range' 0x2000 11 ++
    [0x20, 0x85, 0xA0, 0x1680, 0x2028, 0x2029, 0x202F, 0x205F, 0x3000]
  have listed : c.toNat ∈ codes := by
    simp only [Text.isBlank, Bool.or_eq_true, Bool.and_eq_true, decide_eq_true_eq, beq_iff_eq]
      at blank
    simp only [codes, List.mem_append, List.mem_range'_1, List.mem_cons, List.not_mem_nil,
      or_false]
    omega
  have apart : ∀ code ∈ codes, (Text.alphanumericRanges.any fun range =>
      range.1 ≤ code && code ≤ range.2) = false ∧ code ≠ 0x5F ∧ code ≠ 0x24 ∧ code ≠ 0x2D := by
    decide +kernel
  obtain ⟨outside, noLine, noDollar, noDash⟩ := apart _ listed
  have other (mark : Char) (different : c.toNat ≠ mark.toNat) : (c == mark) = false :=
    beq_eq_false_iff_ne.mpr fun same => different (congrArg Char.toNat same)
  simp only [isNameChar, Text.isAlphanumeric, outside, other '_' noLine, other '$' noDollar,
    other '-' noDash, Bool.or_self]

theorem ofText_name (latest text : List Char) :
    ofText (some latest) text =
      .name (latest.reverse ++ text.takeWhile isNameChar) ::
        ofText none (text.dropWhile isNameChar) := by
  induction text generalizing latest with
  | nil => simp only [ofText, ofName?, List.takeWhile_nil, List.dropWhile_nil, List.append_nil]
  | cons c rest ih =>
      rw [ofText_cons, List.takeWhile_cons, List.dropWhile_cons]
      by_cases inside : isNameChar c = true
      · simp only [if_pos inside, ih, Option.getD_some, List.reverse_cons, List.append_assoc]
        rfl
      · simp only [if_neg inside, List.append_nil]
        rw [ofText_cons, if_neg inside]
        by_cases blank : Text.isBlank c = true
        · simp only [if_pos blank]
          rfl
        · simp only [if_neg blank]
          rfl

theorem ofText_mark {c : Char} (outside : isNameChar c = false) (solid : Text.isBlank c = false)
    (rest : List Char) : ofText none (c :: rest) = ofChar c :: ofText none rest := by
  rw [ofText_cons, if_neg (Bool.eq_false_iff.mp outside), if_neg (Bool.eq_false_iff.mp solid)]
  rfl

theorem ofText_blank {c : Char} (blank : Text.isBlank c = true) (rest : List Char) :
    ofText none (c :: rest) = ofText none rest := by
  rw [ofText_cons, if_neg (Bool.eq_false_iff.mp (isNameChar_of_isBlank blank)), if_pos blank]
  rfl

end Lexeme

namespace Grammar

open Lexeme (isNameChar ofChar ofChar_ne_name head?_ofChar ofText ofText_blank ofText_cons ofText_mark
  ofText_name)

variable {text behind : List Char} {name : String}

theorem Blanks.refl (text : List Char) : Blanks text text :=
  ⟨[], fun _ member => absurd member List.not_mem_nil, rfl⟩

theorem Blanks.cons (blanks : Blanks text behind) {c : Char} (blank : Text.isBlank c = true) :
    Blanks (c :: text) behind := by
  obtain ⟨own, all, rfl⟩ := blanks
  exact ⟨c :: own, List.forall_mem_cons.mpr ⟨blank, all⟩, rfl⟩

theorem Blanks.ofText (blanks : Blanks text behind) : ofText none text = ofText none behind := by
  obtain ⟨own, all, rfl⟩ := blanks
  induction own with
  | nil => rfl
  | cons c rest ih =>
      obtain ⟨blank, others⟩ := List.forall_mem_cons.mp all
      rw [List.cons_append, ofText_blank blank, ih others]

theorem Named.ofText (named : Named name text behind) :
    ofText none text = .name name.toList :: ofText none behind := by
  obtain ⟨nonempty, chars, longest, rfl⟩ := named
  rcases spelling : name.toList with _ | ⟨c, rest⟩
  · exact absurd spelling nonempty
  rw [spelling] at chars
  obtain ⟨first, others⟩ := List.forall_mem_cons.mp chars
  have stops : behind.takeWhile isNameChar = [] ∧ behind.dropWhile isNameChar = behind := by
    rcases behind with _ | ⟨d, behind⟩
    · exact ⟨rfl, rfl⟩
    · have outside := Bool.eq_false_iff.mp (longest d behind rfl)
      exact ⟨List.takeWhile_cons_of_neg outside, List.dropWhile_cons_of_neg outside⟩
  rw [List.cons_append, ofText_cons, if_pos first, Option.getD_none, ofText_name,
    List.takeWhile_append_of_pos others, List.dropWhile_append_of_pos others, stops.1, stops.2,
    List.append_nil]
  rfl

/-! ### The first lexeme of a text -/

theorem blanks_of_ofText (none : ofText none text = []) : Blanks text [] := by
  induction text with
  | nil => exact Blanks.refl []
  | cons c rest ih =>
      by_cases inside : isNameChar c = true
      · rw [ofText_cons, if_pos inside, ofText_name] at none
        cases none
      by_cases blank : Text.isBlank c = true
      · rw [ofText_blank blank] at none
        exact (ih none).cons blank
      · rw [ofText_mark (Bool.eq_false_iff.mpr inside) (Bool.eq_false_iff.mpr blank)] at none
        cases none

theorem first_of_ofText {lexeme : Lexeme} {others : List Lexeme}
    (scanned : ofText none text = lexeme :: others) :
    ∃ front behind, Blanks text front ∧ ofText none behind = others ∧
      ((∃ name, lexeme = .name name.toList ∧ Named name front behind) ∨
        ∃ c, lexeme = ofChar c ∧ front = c :: behind) := by
  induction text with
  | nil => cases scanned
  | cons c rest ih =>
      by_cases inside : isNameChar c = true
      · rw [ofText_cons, if_pos inside, Option.getD_none, ofText_name] at scanned
        obtain ⟨rfl, rfl⟩ := List.cons_eq_cons.mp scanned
        refine ⟨c :: rest, _, Blanks.refl _, rfl, .inl ⟨.ofList (c :: rest.takeWhile isNameChar),
          by rw [String.toList_ofList]; rfl, ?_⟩⟩
        constructor
        case nonempty =>
          rw [String.toList_ofList]
          exact List.cons_ne_nil _ _
        case chars =>
          rw [String.toList_ofList]
          refine List.forall_mem_cons.mpr ⟨inside, fun d member => ?_⟩
          exact List.mem_takeWhile_imp member
        case longest =>
          intro d behind stopped
          have last := List.head?_dropWhile_not isNameChar rest
          rw [stopped] at last
          exact last
        case spelled =>
          rw [String.toList_ofList, List.cons_append, List.takeWhile_append_dropWhile]
      by_cases blank : Text.isBlank c = true
      · rw [ofText_blank blank] at scanned
        obtain ⟨front, behind, blanks, found⟩ := ih scanned
        exact ⟨front, behind, blanks.cons blank, found⟩
      · rw [ofText_mark (Bool.eq_false_iff.mpr inside) (Bool.eq_false_iff.mpr blank)] at scanned
        obtain ⟨rfl, rfl⟩ := List.cons_eq_cons.mp scanned
        exact ⟨c :: rest, rest, Blanks.refl _, rfl, .inr ⟨c, rfl, rfl⟩⟩

end Grammar

/-! ### Lexemes of a part -/

def Group.lexemes (first : Bool) : Group → List Lexeme → List Lexeme
  | .empty, behind => behind
  | .leaf name rest, behind =>
    (if first then [] else [.comma]) ++ .name name.toList :: rest.lexemes false behind
  | .nested name child rest, behind =>
    (if first then [] else [.comma]) ++ .name name.toList :: .openGroup ::
      child.lexemes true (.closeGroup :: rest.lexemes false behind)

def Selection.lexemes : Selection → List Lexeme → List Lexeme
  | .leaf, behind => behind
  | .nested child, behind => .openGroup :: child.lexemes true (.closeGroup :: behind)

theorem Group.lexemes_cons (first : Bool) (name : String) (selection : Selection) (rest : Group)
    (behind : List Lexeme) :
    (Group.cons name selection rest).lexemes first behind =
      (if first then [] else [.comma]) ++ .name name.toList ::
        selection.lexemes (rest.lexemes false behind) := by
  cases selection <;> rfl

theorem Group.lexemes_ne_open (fields : Group) (behind others : List Lexeme) :
    fields.lexemes false (.closeGroup :: behind) ≠ .openGroup :: others := by
  cases fields <;> exact fun same => Lexeme.noConfusion (List.cons_eq_cons.mp same).1

theorem Group.lexemes_ne_nil (fields : Group) (first : Bool) (behind : List Lexeme) :
    fields.lexemes first (.closeGroup :: behind) ≠ [] := by
  cases fields <;> cases first <;> exact List.cons_ne_nil _ _

theorem Group.lexemes_ne_close (first : Bool) (name : String) (selection : Selection)
    (rest : Group) (behind others : List Lexeme) :
    (Group.cons name selection rest).lexemes first behind ≠ .closeGroup :: others := by
  rw [lexemes_cons]
  cases first <;> exact fun same => Lexeme.noConfusion (List.cons_eq_cons.mp same).1

theorem Group.cons_lexemes {first : Bool} {name name' : String} (selection selection' : Selection)
    {rest rest' : Group} {behind behind' : List Lexeme}
    (same : (Group.cons name selection rest).lexemes first behind =
      (Group.cons name' selection' rest').lexemes first behind') :
    name = name' ∧ selection.lexemes (rest.lexemes false behind) =
      selection'.lexemes (rest'.lexemes false behind') := by
  rw [lexemes_cons, lexemes_cons] at same
  obtain ⟨named, others⟩ := List.cons_eq_cons.mp (List.append_cancel_left same)
  injection named with spelling
  exact ⟨String.toList_inj.mp spelling, others⟩

theorem Group.lexemes_inj {fields fields' : Group} {first : Bool} {behind behind' : List Lexeme}
    (same : fields.lexemes first (.closeGroup :: behind) =
      fields'.lexemes first (.closeGroup :: behind')) : fields = fields' ∧ behind = behind' := by
  induction fields generalizing fields' first behind behind' with
  | empty =>
      cases fields' with
      | empty => exact ⟨rfl, (List.cons_eq_cons.mp same).2⟩
      | leaf name rest => exact absurd same.symm (lexemes_ne_close first name .leaf rest _ _)
      | nested name child rest =>
          exact absurd same.symm (lexemes_ne_close first name (.nested child) rest _ _)
  | leaf name rest later =>
      cases fields' with
      | empty => exact absurd same (lexemes_ne_close first name .leaf rest _ _)
      | leaf name' rest' =>
          obtain ⟨rfl, others⟩ := cons_lexemes .leaf .leaf same
          obtain ⟨rfl, last⟩ := later others
          exact ⟨rfl, last⟩
      | nested name' child' rest' =>
          have others := (cons_lexemes .leaf (.nested child') same).2
          exact absurd others (lexemes_ne_open rest _ _)
  | nested name child rest inner later =>
      cases fields' with
      | empty => exact absurd same (lexemes_ne_close first name (.nested child) rest _ _)
      | leaf name' rest' =>
          have others := (cons_lexemes (.nested child) .leaf same).2
          exact absurd others.symm (lexemes_ne_open rest' _ _)
      | nested name' child' rest' =>
          obtain ⟨rfl, others⟩ := cons_lexemes (.nested child) (.nested child') same
          obtain ⟨rfl, outside⟩ := inner (List.cons_eq_cons.mp others).2
          obtain ⟨rfl, last⟩ := later outside
          exact ⟨rfl, last⟩

namespace Grammar

open Lexeme (isNameChar ofChar ofChar_ne_name head?_ofChar ofText ofText_blank ofText_cons ofText_mark
  ofText_name)

def Part.lexemes : Part → List Lexeme → List Lexeme
  | .group whole, behind => .openGroup :: whole.lexemes true (.closeGroup :: behind)
  | .field name selection, behind => .name name.toList :: selection.lexemes behind
  | .others fields, behind => fields.lexemes false (.closeGroup :: behind)

def Part.Filled : Part → Prop
  | .group whole => whole ≠ .empty ∧ whole.Filled
  | .field _ .leaf => True
  | .field _ (.nested child) => child ≠ .empty ∧ child.Filled
  | .others fields => fields.Filled

theorem filled_cons {name : String} {selection : Selection} {rest : Group}
    (field : (Part.field name selection).Filled) (others : rest.Filled) :
    Group.cons name selection rest ≠ .empty ∧ (Group.cons name selection rest).Filled := by
  cases selection with
  | leaf => exact ⟨Group.noConfusion, others⟩
  | nested child => exact ⟨Group.noConfusion, field.1, field.2, others⟩

theorem Derives.filled {part : Part} {text behind : List Char}
    (derives : Derives part text behind) : part.Filled := by
  induction derives with
  | group gap field gap' closed fieldFilled othersFilled =>
      exact filled_cons fieldFilled othersFilled
  | leaf named => trivial
  | nested named gap group groupFilled => exact groupFilled
  | close => trivial
  | comma gap field gap' closed fieldFilled othersFilled =>
      exact (filled_cons fieldFilled othersFilled).2

theorem Derives.ofText {part : Part} {text behind : List Char}
    (derives : Derives part text behind) : ofText none text = part.lexemes (ofText none behind) := by
  have mark (c : Char) (one : c = '{' ∨ c = '}' ∨ c = ',') (rest : List Char) :
      Lexeme.ofText none (c :: rest) = ofChar c :: Lexeme.ofText none rest := by
    apply ofText_mark <;> rcases one with rfl | rfl | rfl <;> decide +kernel
  induction derives with
  | group gap field gap' closed fieldRead othersRead =>
      rw [mark '{' (.inl rfl), gap.ofText, fieldRead, gap'.ofText, othersRead]
      exact congrArg (.openGroup :: ·) (Group.lexemes_cons true _ _ _ _).symm
  | leaf named => exact named.ofText
  | nested named gap group groupRead =>
      rw [named.ofText, gap.ofText, groupRead]
      rfl
  | close => exact mark '}' (.inr (.inl rfl)) _
  | comma gap field gap' closed fieldRead othersRead =>
      rw [mark ',' (.inr (.inr rfl)), gap.ofText, fieldRead, gap'.ofText, othersRead]
      exact (Group.lexemes_cons false _ _ _ _).symm

/-! ### A part from its lexemes -/

variable {text : List Char} {others : List Lexeme}

theorem mark_of_ofText {lexeme : Lexeme} (scanned : ofText none text = lexeme :: others)
    (mark : ∀ chars, lexeme ≠ .name chars) {c : Char} (head : lexeme.head? = some c) :
    ∃ behind, Blanks text (c :: behind) ∧ ofText none behind = others := by
  obtain ⟨front, behind, blanks, read, ⟨name, same, _⟩ | ⟨d, same, rfl⟩⟩ := first_of_ofText scanned
  · exact absurd same (mark _)
  · rw [same, head?_ofChar] at head
    cases head
    exact ⟨behind, blanks, read⟩

theorem name_of_ofText {name : String} (scanned : ofText none text = .name name.toList :: others) :
    ∃ front behind, Blanks text front ∧ Named name front behind ∧ ofText none behind = others := by
  obtain ⟨front, behind, blanks, read, ⟨own, same, named⟩ | ⟨c, same, rfl⟩⟩ :=
    first_of_ofText scanned
  · injection same with spelling
    obtain rfl := String.toList_inj.mp spelling
    exact ⟨front, behind, blanks, named, read⟩
  · exact absurd same.symm (ofChar_ne_name c _)

theorem field_of_ofText {name : String} {selection : Selection}
    (inner : ∀ child, selection = .nested child → ∀ text others,
      ofText none text = child.lexemes true (.closeGroup :: others) →
        ∃ behind, Derives (.group child) ('{' :: text) behind ∧ ofText none behind = others)
    (scanned : ofText none text = .name name.toList :: selection.lexemes others) :
    ∃ front behind, Blanks text front ∧ Derives (.field name selection) front behind ∧
      ofText none behind = others := by
  obtain ⟨front, after, blanks, named, read⟩ := name_of_ofText scanned
  cases selection with
  | leaf => exact ⟨front, after, blanks, .leaf named, read⟩
  | nested child =>
      obtain ⟨inside, gap, readInside⟩ := mark_of_ofText read (fun _ => Lexeme.noConfusion) rfl
      obtain ⟨behind, derives, readBehind⟩ := inner child rfl inside others readInside
      exact ⟨front, behind, blanks, .nested named gap derives, readBehind⟩

/-- What fields with their lexemes in a text derive: the text is the inside of a group, if the
fields are all of it, or what stands behind its first fields. -/
structure Derived (fields : Group) : Prop where
  whole : ∀ text others, fields ≠ .empty →
    ofText none text = fields.lexemes true (.closeGroup :: others) →
      ∃ behind, Derives (.group fields) ('{' :: text) behind ∧ ofText none behind = others
  others : ∀ text others, ofText none text = fields.lexemes false (.closeGroup :: others) →
    ∃ front behind, Blanks text front ∧ Derives (.others fields) front behind ∧
      ofText none behind = others

theorem derived_cons {name : String} (selection : Selection) {rest : Group}
    (inner : ∀ child, selection = .nested child → child ≠ .empty ∧ Derived child)
    (later : Derived rest) : Derived (.cons name selection rest) := by
  have fields (text : List Char) (others : List Lexeme)
      (scanned : ofText none text = .name name.toList ::
        selection.lexemes (rest.lexemes false (.closeGroup :: others))) :
      ∃ first after tail behind, Blanks text first ∧ Derives (.field name selection) first after ∧
        Blanks after tail ∧ Derives (.others rest) tail behind ∧ ofText none behind = others := by
    obtain ⟨first, after, blanks, field, read⟩ := field_of_ofText
      (fun child same text others => (inner child same).2.whole text others (inner child same).1)
      scanned
    obtain ⟨tail, behind, gap, closed, readBehind⟩ := later.others after others read
    exact ⟨first, after, tail, behind, blanks, field, gap, closed, readBehind⟩
  constructor
  case whole =>
    intro text others _ scanned
    rw [Group.lexemes_cons] at scanned
    obtain ⟨first, after, tail, behind, gap, field, gap', closed, read⟩ := fields text others scanned
    exact ⟨behind, .group gap field gap' closed, read⟩
  case others =>
    intro text others scanned
    rw [Group.lexemes_cons] at scanned
    obtain ⟨inside, blanks, readInside⟩ := mark_of_ofText scanned (fun _ => Lexeme.noConfusion) rfl
    obtain ⟨first, after, tail, behind, gap, field, gap', closed, read⟩ :=
      fields inside others readInside
    exact ⟨_, behind, blanks, .comma gap field gap' closed, read⟩

theorem derived_of_filled {fields : Group} (filled : fields.Filled) : Derived fields := by
  induction fields with
  | empty =>
      refine ⟨fun _ _ nonempty => absurd rfl nonempty, fun text others scanned => ?_⟩
      obtain ⟨behind, blanks, read⟩ := mark_of_ofText scanned (fun _ => Lexeme.noConfusion) rfl
      exact ⟨_, behind, blanks, .close, read⟩
  | leaf name rest later =>
      exact derived_cons .leaf (fun _ same => Selection.noConfusion same) (later filled)
  | nested name child rest inner later =>
      refine derived_cons (.nested child) (fun _ same => ?_) (later filled.2.2)
      cases same
      exact ⟨filled.1, inner filled.2.1⟩

/-- A text spells a group if its lexemes are those of the group and no group in it is without
fields. -/
theorem spells_iff {text : List Char} {group : Group} :
    Spells text group ↔ ofText none text = (Part.group group).lexemes [] ∧
      (Part.group group).Filled := by
  constructor
  · rintro ⟨front, behind, gap, derives, gap'⟩
    refine ⟨?_, derives.filled⟩
    rw [gap.ofText, derives.ofText, gap'.ofText]
    rfl
  · rintro ⟨scanned, nonempty, filled⟩
    obtain ⟨inside, gap, read⟩ := mark_of_ofText scanned (fun _ => Lexeme.noConfusion) rfl
    obtain ⟨behind, derives, readBehind⟩ :=
      (derived_of_filled filled).whole inside [] nonempty read
    exact ⟨_, behind, gap, derives, blanks_of_ofText readBehind⟩

end Grammar
end JsonProjection
