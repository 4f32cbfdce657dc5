import JsonProjection.Proofs.Syntax.Narrow

/-!
Where the parts of a tree stand among its tokens.

A part has the tokens that spell it, side by side among those of the whole tree. Nothing but the
kinds of the tokens decides which ones they are.
-/

namespace JsonProjection

open Walk

theorem Passable.ne_nil {kinds : List Token.Kind} (passable : Passable kinds) : kinds ≠ [] := by
  cases passable <;> exact List.cons_ne_nil _ _

/-- A part has a value's tokens, side by side among some tokens. -/
structure Part.Stands (part : Part) (tokens : List Token) : Prop where
  passable : Passable part.tree.kinds
  spelled : part.tokens.map (·.kind) = part.tree.kinds
  inside : part.tokens <:+: tokens

theorem Part.Stands.ne_nil {part : Part} {tokens : List Token} (stands : part.Stands tokens) :
    part.tokens ≠ [] := by
  intro none
  have spelled := stands.spelled
  rw [none] at spelled
  exact stands.passable.ne_nil spelled.symm

theorem Part.Stands.among {part : Part} {own tokens : List Token} (stands : part.Stands own)
    (inside : own <:+: tokens) : part.Stands tokens :=
  ⟨stands.passable, stands.spelled, stands.inside.trans inside⟩

theorem Part.Stands.bounds {part : Part} {tokens : List Token} (stands : part.Stands tokens)
    {first last : Nat} (chain : Token.Chain first tokens last) :
    part.span.start < part.span.stop ∧ part.span.stop ≤ last := by
  obtain ⟨front, back, rfl⟩ := stands.inside
  obtain ⟨middle, upTo, behind⟩ := chain.split
  obtain ⟨_, _, own⟩ := upTo.split
  obtain ⟨-, proper, stop⟩ := own.cover stands.ne_nil
  exact ⟨proper, Nat.le_trans stop behind.le⟩

/-! ### Among which tokens -/

namespace Tree

variable {group : Group}

theorem itemParts_stand {items : List Tree}
    (each : ∀ item ∈ items, ∀ tokens : List Token, tokens.map (·.kind) = item.kinds →
      ∀ part ∈ item.parts group tokens, part.Stands tokens)
    (first : Bool) {tokens : List Token} (spelled : tokens.map (·.kind) = itemKinds first items) :
    ∀ part ∈ itemParts group items (tokens.drop (separator first).length), part.Stands tokens := by
  induction items generalizing first tokens with
  | nil => exact fun part member => absurd member List.not_mem_nil
  | cons item rest ih =>
      rw [itemKinds] at spelled
      obtain ⟨lead, others, rfl, leadSpelled, othersSpelled⟩ := List.map_eq_append_iff.mp spelled
      obtain ⟨own, behind, rfl, ownSpelled, behindSpelled⟩ :=
        List.map_eq_append_iff.mp othersSpelled
      have length : item.kinds.length = own.length := by
        rw [← ownSpelled, List.length_map]
      have further := ih (fun other member => each other (List.mem_cons_of_mem item member)) false
        behindSpelled
      rw [drop_separator leadSpelled, itemParts, length, List.take_left,
        List.drop_length_add_append]
      refine List.forall_mem_append.mpr ⟨fun part member => ?_, fun part member => ?_⟩
      · have stands := each item List.mem_cons_self own ownSpelled part member
        exact stands.among ⟨lead, behind, List.append_assoc lead own behind⟩
      · have behind_suffix : behind <:+ lead ++ (own ++ behind) :=
          (List.suffix_append own behind).trans (List.suffix_append lead _)
        exact (further part member).among behind_suffix.isInfix

theorem memberParts_stand {members : List (String × Tree)}
    (passable : ∀ member ∈ members, Passable member.2.kinds)
    (each : ∀ member ∈ members, ∀ child, group.get? member.1 = some (.nested child) →
      ∀ tokens : List Token, tokens.map (·.kind) = member.2.kinds →
        ∀ part ∈ member.2.parts child tokens, part.Stands tokens)
    (first : Bool) {tokens : List Token}
    (spelled : tokens.map (·.kind) = memberKinds first members) :
    ∀ part ∈ memberParts group members (tokens.drop (separator first).length),
      part.Stands tokens := by
  induction members generalizing first tokens with
  | nil => exact fun part member => absurd member List.not_mem_nil
  | cons member rest ih =>
      obtain ⟨name, value⟩ := member
      obtain ⟨lead, key, colon, own, behind, rfl, leadSpelled, -, -, ownSpelled, behindSpelled⟩ :=
        memberKinds_split spelled
      have length : value.kinds.length = own.length := by
        rw [← ownSpelled, List.length_map]
      have further := ih (fun other inside => passable other (List.mem_cons_of_mem _ inside))
        (fun other inside => each other (List.mem_cons_of_mem _ inside)) false behindSpelled
      have here : own <:+: lead ++ [key, colon] ++ (own ++ behind) :=
        ⟨lead ++ [key, colon], behind, List.append_assoc _ own behind⟩
      have later : behind <:+ lead ++ [key, colon] ++ (own ++ behind) :=
        (List.suffix_append own behind).trans (List.suffix_append _ _)
      rw [List.append_assoc] at here later ⊢
      rw [drop_separator leadSpelled, memberParts, length]
      simp only [List.cons_append, List.nil_append, List.drop_succ_cons, List.drop_zero,
        List.take_left, List.drop_length_add_append] at here later ⊢
      refine List.forall_mem_append.mpr ⟨?_, fun part inside => ?_⟩
      · have alone (selected : Bool) : Part.Stands ⟨name, selected, own, value⟩ own :=
          ⟨passable _ List.mem_cons_self, ownSpelled, List.infix_rfl⟩
        cases found : group.get? name with
        | none => exact List.forall_mem_singleton.mpr ((alone false).among here)
        | some selection =>
            cases selection with
            | leaf => exact List.forall_mem_singleton.mpr ((alone true).among here)
            | nested child =>
                exact fun part inside =>
                  (each _ List.mem_cons_self child found own ownSpelled part inside).among here
      · exact (further part inside).among later.isInfix

/-- The parts of a value that fits a group stand among its tokens. -/
theorem Fits.parts_stand {mode : EmitMode} {tree : Tree} (fits : tree.Fits mode (.project group))
    {tokens : List Token} (spelled : tokens.map (·.kind) = tree.kinds) :
    ∀ part ∈ tree.parts group tokens, part.Stands tokens := by
  generalize treated : Treatment.project group = treatment at fits
  induction fits generalizing group tokens with
  | skip passable => cases treated
  | capture name raw passable => cases treated
  | keep json => cases treated
  | scalar => exact fun part member => absurd member List.not_mem_nil
  | array inner ih =>
      obtain ⟨opening, others, rfl, -, othersSpelled⟩ := List.map_eq_cons_iff.mp spelled
      intro part member
      have stands := itemParts_stand (fun item inside tokens own => ih item inside own treated)
        true othersSpelled part member
      exact stands.among (List.suffix_cons opening others).isInfix
  | @object own members inner ih =>
      cases treated
      obtain ⟨opening, others, rfl, -, othersSpelled⟩ := List.map_eq_cons_iff.mp spelled
      intro part inside
      have stands := memberParts_stand (fun member inside => (inner member inside).passable)
        (fun member inside child found tokens own => ih member inside own (by
          simp only [Group.treatment, found])) true othersSpelled part inside
      exact stands.among (List.suffix_cons opening others).isInfix

end Tree

/-! ### In which order -/

mutual

theorem Tree.parts_sublist (tree : Tree) (group : Group) (tokens : List Token) :
    ((tree.parts group tokens).flatMap (·.tokens)).Sublist tokens := by
  cases tree with
  | scalar own => exact List.nil_sublist tokens
  | stretch kinds => exact List.nil_sublist tokens
  | array items =>
      rw [Tree.parts]
      exact (Tree.itemParts_sublist items group _).trans (List.drop_sublist 1 tokens)
  | object members =>
      rw [Tree.parts]
      exact (Tree.memberParts_sublist members group _).trans (List.drop_sublist 1 tokens)

theorem Tree.itemParts_sublist (items : List Tree) (group : Group) (tokens : List Token) :
    ((Tree.itemParts group items tokens).flatMap (·.tokens)).Sublist tokens := by
  cases items with
  | nil => exact List.nil_sublist tokens
  | cons item rest =>
      have own := Tree.parts_sublist item group (tokens.take item.kinds.length)
      have others := Tree.itemParts_sublist rest group (tokens.drop (item.kinds.length + 1))
      have behind : (tokens.drop (item.kinds.length + 1)).Sublist
          (tokens.drop item.kinds.length) := by
        rw [← List.drop_drop]
        exact List.drop_sublist 1 _
      have all := own.append (others.trans behind)
      rw [List.take_append_drop] at all
      rw [Tree.itemParts, List.flatMap_append]
      exact all

theorem Tree.memberParts_sublist (members : List (String × Tree)) (group : Group)
    (tokens : List Token) :
    ((Tree.memberParts group members tokens).flatMap (·.tokens)).Sublist tokens := by
  cases members with
  | nil => exact List.nil_sublist tokens
  | cons member rest =>
      obtain ⟨name, value⟩ := member
      have others := Tree.memberParts_sublist rest group (tokens.drop (value.kinds.length + 3))
      have behind : (tokens.drop (value.kinds.length + 3)).Sublist
          ((tokens.drop 2).drop value.kinds.length) := by
        have later := List.drop_sublist 1 ((tokens.drop 2).drop value.kinds.length)
        rw [List.drop_drop, List.drop_drop] at later
        rw [show value.kinds.length + 3 = 2 + (value.kinds.length + 1) by omega]
        exact later
      have here : List.Sublist (List.flatMap (·.tokens)
          (match group.get? name with
            | none => [⟨name, false, (tokens.drop 2).take value.kinds.length, value⟩]
            | some .leaf => [⟨name, true, (tokens.drop 2).take value.kinds.length, value⟩]
            | some (.nested child) =>
              value.parts child ((tokens.drop 2).take value.kinds.length)))
          ((tokens.drop 2).take value.kinds.length) := by
        cases group.get? name with
        | none => simp
        | some selection =>
            cases selection with
            | leaf => simp
            | nested child => exact Tree.parts_sublist value child _
      have all := here.append (others.trans behind)
      rw [List.take_append_drop] at all
      rw [Tree.memberParts, List.flatMap_append]
      exact all.trans (List.drop_sublist 2 tokens)

end

theorem Tree.parts_ordered {tree : Tree} {group : Group} {tokens : List Token} {first last : Nat}
    (chain : Token.Chain first tokens last)
    (some : ∀ part ∈ tree.parts group tokens, part.tokens ≠ []) :
    (tree.parts group tokens).Pairwise fun one other => one.span.stop ≤ other.span.start := by
  have ordered := chain.pairwise.sublist (Tree.parts_sublist tree group tokens)
  refine (List.pairwise_flatMap.mp ordered).2.imp_of_mem ?_
  intro one other oneMember otherMember apart
  obtain ⟨_, _, last, lastMember, oneSpan⟩ := Token.cover_mem (some one oneMember)
  obtain ⟨first, firstMember, _, _, otherSpan⟩ := Token.cover_mem (some other otherMember)
  rw [Part.span, Part.span, oneSpan, otherSpan]
  exact apart last lastMember first firstMember

/-! ### Tokens in the place of others -/

def Part.map (replace : Token → Token) (part : Part) : Part :=
  { part with tokens := part.tokens.map replace }

mutual

theorem Tree.parts_map (replace : Token → Token) (tree : Tree) (group : Group)
    (tokens : List Token) :
    tree.parts group (tokens.map replace) = (tree.parts group tokens).map (Part.map replace) := by
  cases tree with
  | scalar own => rfl
  | stretch kinds => rfl
  | array items =>
      rw [Tree.parts, Tree.parts, ← List.map_drop, Tree.itemParts_map replace items]
  | object members =>
      rw [Tree.parts, Tree.parts, ← List.map_drop, Tree.memberParts_map replace members]

theorem Tree.itemParts_map (replace : Token → Token) (items : List Tree) (group : Group)
    (tokens : List Token) :
    Tree.itemParts group items (tokens.map replace) =
      (Tree.itemParts group items tokens).map (Part.map replace) := by
  cases items with
  | nil => rfl
  | cons item rest =>
      rw [Tree.itemParts, Tree.itemParts, ← List.map_take, ← List.map_drop,
        Tree.parts_map replace item, Tree.itemParts_map replace rest, List.map_append]

theorem Tree.memberParts_map (replace : Token → Token) (members : List (String × Tree))
    (group : Group) (tokens : List Token) :
    Tree.memberParts group members (tokens.map replace) =
      (Tree.memberParts group members tokens).map (Part.map replace) := by
  cases members with
  | nil => rfl
  | cons member rest =>
      obtain ⟨name, value⟩ := member
      simp only [Tree.memberParts, ← List.map_take, ← List.map_drop,
        Tree.memberParts_map replace rest, List.map_append]
      congr 1
      cases group.get? name with
      | none => rfl
      | some selection =>
          cases selection with
          | leaf => rfl
          | nested child => exact Tree.parts_map replace value child _

end

end JsonProjection
