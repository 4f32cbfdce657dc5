import JsonProjection.Proofs.Selection.Grammar

/-!
Where the lexemes of a text stand.

A `Layout` reads the lexemes off a text without a scanner: white space is dropped, a name reaches as
far as its characters do, and every other character is a lexeme by itself. The scanner finds just
these. So a text falls apart where its lexemes do, and two texts may be put together where no name
grows.
-/

namespace JsonProjection

def Text.width : List Char → Nat
  | [] => 0
  | c :: rest => c.utf8Size + Text.width rest

theorem Text.width_append (first second : List Char) :
    Text.width (first ++ second) = Text.width first + Text.width second := by
  induction first with
  | nil => exact (Nat.zero_add _).symm
  | cons c rest ih => rw [List.cons_append, width, width, ih, Nat.add_assoc]

theorem Text.width_eq (text : List Char) : (String.ofList text).utf8ByteSize = Text.width text := by
  induction text with
  | nil => rfl
  | cons c rest ih =>
      rw [← List.singleton_append, String.ofList_append, String.utf8ByteSize_append, ih,
        ← String.singleton_eq_ofList, String.utf8ByteSize_singleton]
      rfl

namespace Lexeme

/-- The lexemes that a text from some place on falls into, each with its place. -/
inductive Layout : Nat → List Char → List (Lexeme × Nat) → Prop where
  | nil (place : Nat) : Layout place [] []
  | blank {place : Nat} {c : Char} {rest : List Char} {entries : List (Lexeme × Nat)}
      (blank : Text.isBlank c = true) (behind : Layout (place + c.utf8Size) rest entries) :
      Layout place (c :: rest) entries
  | name {place : Nat} {first : Char} {more rest : List Char} {entries : List (Lexeme × Nat)}
      (chars : ∀ c ∈ first :: more, isNameChar c = true)
      (longest : ∀ c ∈ rest.head?, isNameChar c = false)
      (behind : Layout (place + Text.width (first :: more)) rest entries) :
      Layout place (first :: (more ++ rest)) ((.name (first :: more), place) :: entries)
  | mark {place : Nat} {c : Char} {rest : List Char} {entries : List (Lexeme × Nat)}
      (outside : isNameChar c = false) (solid : Text.isBlank c = false)
      (behind : Layout (place + c.utf8Size) rest entries) :
      Layout place (c :: rest) ((ofChar c, place) :: entries)

/-- No name reaches over the end of the first text into the second one. -/
def Apart (first second : List Char) : Prop :=
  ∀ c ∈ second.head?, isNameChar c = true → ∀ d ∈ first.getLast?, isNameChar d = false

/-! ### The scanner -/

namespace Scanner

def settled (scanner : Scanner) : Scanner :=
  ⟨scanner.offset, none, scanner.flush⟩

theorem foldl_settled (scanner : Scanner) {text : List Char}
    (ends : ∀ c ∈ text.head?, isNameChar c = false) :
    (text.foldl push scanner).flush = (text.foldl push scanner.settled).flush := by
  cases text with
  | nil => rfl
  | cons c rest =>
      have outside : isNameChar c = false := ends c rfl
      have same : scanner.push c = scanner.settled.push c := by
        unfold push
        simp only [outside, Bool.false_eq_true, if_false]
        rfl
      rw [List.foldl_cons, List.foldl_cons, same]

theorem foldl_name (start place : Nat) (latest : List (Lexeme × Nat)) (seen : List Char)
    {name : List Char} (chars : ∀ c ∈ name, isNameChar c = true) :
    name.foldl push ⟨place, some (start, seen), latest⟩ =
      ⟨place + Text.width name, some (start, name.reverse ++ seen), latest⟩ := by
  induction name generalizing place seen with
  | nil => rfl
  | cons c rest ih =>
      obtain ⟨inside, others⟩ := List.forall_mem_cons.mp chars
      have pushed : push ⟨place, some (start, seen), latest⟩ c =
          ⟨place + c.utf8Size, some (start, c :: seen), latest⟩ := by
        unfold push
        simp only [inside, if_true]
      rw [List.foldl_cons, pushed, ih _ _ others, Text.width, Nat.add_assoc, List.reverse_cons,
        List.append_assoc, List.singleton_append]

end Scanner

theorem Layout.flush {place : Nat} {text : List Char} {entries : List (Lexeme × Nat)}
    (layout : Layout place text entries) (latest : List (Lexeme × Nat)) :
    (text.foldl Scanner.push ⟨place, none, latest⟩).flush = entries.reverse ++ latest := by
  induction layout generalizing latest with
  | nil => rfl
  | @blank place c rest entries blank _ ih =>
      have pushed : Scanner.push ⟨place, none, latest⟩ c = ⟨place + c.utf8Size, none, latest⟩ := by
        unfold Scanner.push
        simp only [isNameChar_of_isBlank blank, blank, Bool.false_eq_true, if_false, if_true]
        rfl
      rw [List.foldl_cons, pushed, ih]
  | @name place first more rest entries chars longest _ ih =>
      obtain ⟨inside, others⟩ := List.forall_mem_cons.mp chars
      have pushed : Scanner.push ⟨place, none, latest⟩ first =
          ⟨place + first.utf8Size, some (place, [first]), latest⟩ := by
        unfold Scanner.push
        simp only [inside, if_true]
      have ended : Scanner.settled ⟨place + first.utf8Size + Text.width more,
          some (place, more.reverse ++ [first]), latest⟩ =
          ⟨place + Text.width (first :: more), none, (.name (first :: more), place) :: latest⟩ := by
        simp only [Scanner.settled, Scanner.flush, Text.width, Nat.add_assoc, List.reverse_append,
          List.reverse_reverse, List.reverse_singleton, List.singleton_append]
      rw [List.foldl_cons, pushed, List.foldl_append, Scanner.foldl_name _ _ _ _ others,
        Scanner.foldl_settled _ longest, ended, ih, List.reverse_cons, List.append_assoc,
        List.singleton_append]
  | @mark place c rest entries outside solid _ ih =>
      have pushed : Scanner.push ⟨place, none, latest⟩ c =
          ⟨place + c.utf8Size, none, (ofChar c, place) :: latest⟩ := by
        unfold Scanner.push
        simp only [outside, solid, Bool.false_eq_true, if_false]
        rfl
      rw [List.foldl_cons, pushed, ih, List.reverse_cons, List.append_assoc, List.singleton_append]

theorem Layout.scan {text : List Char} {entries : List (Lexeme × Nat)}
    (layout : Layout 0 text entries) : scan text = entries := by
  rw [Lexeme.scan, layout.flush, List.append_nil, List.reverse_reverse]

theorem exists_layout (place : Nat) (text : List Char) : ∃ entries, Layout place text entries := by
  induction length : text.length using Nat.strong_induction_on generalizing place text with
  | _ length ih =>
      subst length
      cases text with
      | nil => exact ⟨[], .nil place⟩
      | cons c rest =>
          by_cases inside : isNameChar c = true
          · have shorter : (rest.dropWhile isNameChar).length < (c :: rest).length :=
              Nat.lt_succ_of_le (List.dropWhile_sublist isNameChar).length_le
            obtain ⟨entries, behind⟩ := ih _ shorter
              (place + Text.width (c :: rest.takeWhile isNameChar)) _ rfl
            refine ⟨(.name (c :: rest.takeWhile isNameChar), place) :: entries, ?_⟩
            have layout : Layout place
                (c :: (rest.takeWhile isNameChar ++ rest.dropWhile isNameChar))
                ((.name (c :: rest.takeWhile isNameChar), place) :: entries) := by
              refine .name (List.forall_mem_cons.mpr ⟨inside, fun d member => ?_⟩) ?_ behind
              · exact List.mem_takeWhile_imp member
              · intro d first
                have last := List.head?_dropWhile_not isNameChar rest
                rw [Option.mem_def.mp first] at last
                exact last
            rw [List.takeWhile_append_dropWhile] at layout
            exact layout
          · obtain ⟨entries, behind⟩ := ih rest.length (Nat.lt_succ_self _)
              (place + c.utf8Size) rest rfl
            by_cases blank : Text.isBlank c = true
            · exact ⟨entries, .blank blank behind⟩
            · exact ⟨_, .mark (Bool.eq_false_iff.mpr inside) (Bool.eq_false_iff.mpr blank) behind⟩

/-- The scanner finds the lexemes of the layout. -/
theorem layout_scan (text : List Char) : Layout 0 text (Lexeme.scan text) := by
  obtain ⟨entries, layout⟩ := exists_layout 0 text
  rw [layout.scan]
  exact layout

/-! ### Putting texts together -/

theorem Apart.of_blank {c : Char} (blank : Text.isBlank c = true) (first rest : List Char) :
    Apart first (c :: rest) := by
  intro d same inside
  cases same
  rw [isNameChar_of_isBlank blank] at inside
  cases inside

theorem Apart.of_nil (second : List Char) : Apart [] second := by
  intro c head inside d last
  cases last

theorem Apart.of_outside {c : Char} (outside : isNameChar c = false) (second : List Char) :
    Apart [c] second := by
  intro d head inside own last
  cases last
  exact outside

theorem Apart.extend {lead first second : List Char} (bare : first = [] → Apart lead second)
    (apart : Apart first second) : Apart (lead ++ first) second := by
  cases first with
  | nil =>
      rw [List.append_nil]
      exact bare rfl
  | cons d others =>
      intro c head inside e last
      refine apart c head inside e ?_
      have some := List.getLast?_eq_some_getLast (List.cons_ne_nil d others)
      rw [List.getLast?_append, some] at last
      rw [some]
      exact last

theorem Apart.rest (lead : List Char) {first second : List Char}
    (apart : Apart (lead ++ first) second) :
    Apart first second := by
  intro c head inside d last
  refine apart c head inside d ?_
  rw [List.getLast?_append, Option.mem_def.mp last]
  rfl

theorem Layout.append {place : Nat} {first second : List Char}
    {entries others : List (Lexeme × Nat)} (front : Layout place first entries)
    (apart : Apart first second) (back : Layout (place + Text.width first) second others) :
    Layout place (first ++ second) (entries ++ others) := by
  induction front with
  | nil => exact back
  | @blank place c rest entries blank _ ih =>
      rw [Text.width, ← Nat.add_assoc] at back
      exact .blank blank (ih (Apart.rest [c] apart) back)
  | @name place start more rest entries chars longest _ ih =>
      have further : Apart rest second := Apart.rest (start :: more) apart
      rw [← List.cons_append, Text.width_append, ← Nat.add_assoc] at back
      rw [List.cons_append, List.append_assoc]
      refine .name chars ?_ (ih further back)
      -- Where nothing follows the name, the second text must not go on with it.
      intro c head
      cases rest with
      | cons d behind => exact longest c head
      | nil =>
          cases inside : isNameChar c with
          | false => rfl
          | true =>
              have last := List.getLast?_eq_some_getLast (List.cons_ne_nil start more)
              have outside := apart c head inside _ (by rw [List.append_nil]; exact last)
              rw [chars _ (List.getLast_mem _)] at outside
              cases outside
  | @mark place c rest entries outside solid _ ih =>
      rw [Text.width, ← Nat.add_assoc] at back
      exact .mark outside solid (ih (Apart.rest [c] apart) back)

/-! ### Taking texts apart -/

structure Falls (place : Nat) (text : List Char) (front : List (Lexeme × Nat))
    (entry : Lexeme × Nat) (back : List (Lexeme × Nat)) (before after : List Char) : Prop where
  split : text = before ++ after
  offset : entry.2 = place + Text.width before
  front : Layout place before front
  back : Layout entry.2 after (entry :: back)
  apart : Apart before after
  solid : ∀ c ∈ after.head?, Text.isBlank c = false

theorem Falls.here {place : Nat} {text : List Char} {lexeme : Lexeme}
    {back : List (Lexeme × Nat)} (layout : Layout place text ((lexeme, place) :: back))
    (solid : ∀ c ∈ text.head?, Text.isBlank c = false) :
    Falls place text [] (lexeme, place) back [] text :=
  ⟨rfl, rfl, .nil place, layout, Apart.of_nil text, solid⟩

theorem Layout.falls {place : Nat} {text : List Char} {front back : List (Lexeme × Nat)}
    {entry : Lexeme × Nat} (layout : Layout place text (front ++ entry :: back)) :
    ∃ before after, Falls place text front entry back before after := by
  generalize whole : front ++ entry :: back = entries at layout
  induction layout generalizing front with
  | nil => cases front <;> cases whole
  | @blank place c rest entries blank behind ih =>
      obtain ⟨before, after, split, offset, first, second, apart, solid⟩ := ih whole
      have apart' : Apart ([c] ++ before) after :=
        .extend (fun _ => .of_outside (isNameChar_of_isBlank blank) after) apart
      refine ⟨c :: before, after, by rw [split]; rfl, ?_, .blank blank first, second, apart', solid⟩
      rw [offset, Text.width, Nat.add_assoc]
  | @name place start more rest entries chars longest behind ih =>
      cases front with
      | nil =>
          cases whole
          refine ⟨[], _, .here (.name chars longest behind) fun c head => ?_⟩
          cases head
          refine Bool.eq_false_iff.mpr fun blank => ?_
          have outside := isNameChar_of_isBlank blank
          rw [chars start List.mem_cons_self] at outside
          cases outside
      | cons own others =>
          obtain ⟨rfl, rest'⟩ := List.cons.inj whole
          obtain ⟨before, after, split, offset, first, second, apart, solid⟩ := ih rest'
          have apart' : Apart ((start :: more) ++ before) after := by
            refine .extend (fun none c head inside => ?_) apart
            rw [none, List.nil_append] at split
            rw [longest c (split ▸ head)] at inside
            cases inside
          refine ⟨start :: (more ++ before), after, ?_, ?_, ?_, second, apart', solid⟩
          · rw [split, List.cons_append, List.append_assoc]
          · rw [offset, ← List.cons_append, Text.width_append, Nat.add_assoc]
          · refine .name chars (fun c head => longest c ?_) first
            rw [split]
            cases before with
            | nil => cases head
            | cons d others => exact head
  | @mark place c rest entries outside solid behind ih =>
      cases front with
      | nil =>
          cases whole
          refine ⟨[], _, .here (.mark outside solid behind) fun d head => ?_⟩
          cases head
          exact solid
      | cons own others =>
          obtain ⟨rfl, rest'⟩ := List.cons.inj whole
          obtain ⟨before, after, split, offset, first, second, apart, hard⟩ := ih rest'
          have apart' : Apart ([c] ++ before) after :=
            .extend (fun _ => .of_outside outside after) apart
          refine ⟨c :: before, after, by rw [split]; rfl, ?_, .mark outside solid first, second,
            apart', hard⟩
          rw [offset, Text.width, Nat.add_assoc]

/-! ### The first lexeme -/

theorem Layout.first {place : Nat} {c : Char} {rest : List Char} {entries : List (Lexeme × Nat)}
    (layout : Layout place (c :: rest) entries) (solid : Text.isBlank c = false) :
    ∃ lexeme others, entries = (lexeme, place) :: others ∧ lexeme.head? = some c ∧
      ((∃ more, lexeme = .name (c :: more)) ∧ isNameChar c = true ∨
        lexeme = ofChar c ∧ isNameChar c = false) := by
  cases layout with
  | blank blank _ =>
      rw [blank] at solid
      cases solid
  | @name _ _ more _ others chars _ _ =>
      exact ⟨_, others, rfl, rfl, Or.inl ⟨⟨more, rfl⟩, chars c List.mem_cons_self⟩⟩
  | @mark _ _ _ others outside _ _ =>
      exact ⟨_, others, rfl, head?_ofChar c, Or.inr ⟨rfl, outside⟩⟩

theorem Layout.blanks {place : Nat} {text : List Char} (layout : Layout place text []) :
    ∀ c ∈ text, Text.isBlank c = true := by
  generalize none : ([] : List (Lexeme × Nat)) = entries at layout
  induction layout with
  | nil => exact fun c member => absurd member List.not_mem_nil
  | blank blank _ ih => exact List.forall_mem_cons.mpr ⟨blank, ih none⟩
  | name => cases none
  | mark => cases none

end Lexeme
end JsonProjection
