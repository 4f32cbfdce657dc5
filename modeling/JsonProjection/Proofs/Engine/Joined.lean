import JsonProjection.Proofs.Engine.Project
import JsonProjection.Proofs.Syntax.Parts
import JsonProjection.Proofs.Token.Shift
import JsonProjection.Proofs.Walk.Roots

/-!
A stream of documents is the sum of its documents.

Documents with white space between them give one by one what each of them gives by itself, its raw
leaves as much further behind as the document is. A run, which wants one document, refuses the
second one at its first token.
-/

namespace JsonProjection

open Walk

def Match.shift (offset : Nat) : Match → Match
  | .value projected => .value projected
  | .raw leaf => .raw { leaf with span := leaf.span.shift offset }

/-- A document in a stream: the offset where it starts, its bytes, and what a run of them gives. -/
structure Installment where
  start : Nat
  source : Bytes
  document : Document

/-- Documents from some offset on, one behind the other with white space between them. -/
inductive Joined : Nat → List Installment → Bytes → Prop where
  | nil (start : Nat) : Joined start [] []
  | last (start : Nat) (source : Bytes) (document : Document) :
      Joined start [⟨start, source, document⟩] source
  | cons {start : Nat} {source gap stream : Bytes} {next : Installment}
      {others : List Installment} (document : Document) (separates : Separates gap)
      (behind : Joined (start + source.length + gap.length) (next :: others) stream) :
      Joined start (⟨start, source, document⟩ :: next :: others) (source ++ (gap ++ stream))

/-! ### Parts that stand further behind -/

section Shift

variable {tokens : List Token} {parts : List Part} (stand : ∀ part ∈ parts, part.Stands tokens)
include stand

theorem Part.skipped_shift (offset : Nat) :
    Part.skipped (parts.map (Part.map (Token.shift offset))) = Part.skipped parts := by
  induction parts with
  | nil => rfl
  | cons part rest ih =>
      obtain ⟨own, others⟩ := List.forall_mem_cons.mp stand
      have span : (part.map (Token.shift offset)).span = part.span.shift offset :=
        Token.cover_shift offset own.ne_nil
      rw [List.map_cons, skipped, skipped, ih others, span, Span.length_shift]
      rfl

theorem Part.found_shift (mode : EmitMode) {source : Bytes}
    (chain : Token.Chain 0 tokens source.length) (before after : Bytes) :
    Part.found mode (before ++ (source ++ after))
        (parts.map (Part.map (Token.shift before.length))) =
      (Part.found mode source parts).map (Match.shift before.length) := by
  cases mode with
  | materialize => rfl
  | raw =>
      have selected : (fun part => part.selected) ∘ Part.map (Token.shift before.length) =
          fun part => part.selected := rfl
      simp only [found, List.filter_map, selected, List.map_map]
      refine List.map_congr_left fun part member => ?_
      have own := stand part (List.mem_filter.mp member).1
      have span : (part.map (Token.shift before.length)).span = part.span.shift before.length :=
        Token.cover_shift before.length own.ne_nil
      simp only [Function.comp_apply, leaf, Match.shift, span,
        Span.of_shift (own.bounds chain).2 before after]
      rfl

end Shift

theorem Plan.values_shift (plan : Plan) (tree : Tree) (offset : Nat) :
    (plan.values tree).map (Match.shift offset) = plan.values tree := by
  unfold values
  cases plan.mode with
  | materialize => exact List.map_map
  | raw => rfl

/-! ### Documents among others -/

structure Installment.Rooted {plan : Plan} (installment : Installment) (root : plan.Root) :
    Prop where
  tokens : root.tokens = (Lexing.of installment.source).tokens.map (Token.shift installment.start)
  layout : Layout installment.start installment.source root.tokens
  found : ∀ before after, before.length = installment.start →
    root.found (before ++ (installment.source ++ after)) =
      installment.document.found.map (Match.shift installment.start)
  matched : installment.document.counts.matched = installment.document.found.length
  skipped : installment.document.counts.skipped = root.skipped

theorem Engine.exists_rooted {engine : Engine} (reached : engine.Reached) (start : Nat)
    {source : Bytes} {document : Document} (run : (engine.run source).2 = .ok document) :
    ∃ root : engine.plan.Root, Installment.Rooted ⟨start, source, document⟩ root := by
  obtain ⟨tokens, tree, lexed, spelled, fits⟩ := run_fitting reached run
  have stand := fits.parts_stand spelled
  have chain := Lexing.chain source
  rw [run_tree reached lexed fits spelled] at run
  cases run
  rw [lexed] at chain
  have moved := tree.parts_map (Token.shift start) engine.plan.group tokens
  have layout : Layout 0 source tokens := layout_of_readOn lexed
  have behind := layout.shift start
  rw [Nat.zero_add] at behind
  refine ⟨⟨tree, tokens.map (Token.shift start), fits, ?_⟩, ?_, behind, ?_, ?_, ?_⟩
  · rw [Token.kinds_shift, spelled]
  · rw [lexed]
  · rintro before after rfl
    rw [Plan.Root.found, Plan.Root.parts, moved, Part.found_shift stand _ chain, List.map_append,
      engine.plan.values_shift]
  · exact List.length_append.symm
  · rw [Plan.Root.skipped, Plan.Root.parts, moved, Part.skipped_shift stand]

namespace Joined

variable {plan : Plan} {start : Nat} {installments : List Installment} {stream : Bytes}
  {roots : List plan.Root}

theorem layout (joined : Joined start installments stream)
    (rooted : List.Forall₂ Installment.Rooted installments roots) :
    Layout start stream (roots.flatMap (·.tokens)) := by
  induction joined generalizing roots with
  | nil start =>
      cases rooted
      exact .nil start
  | last start source document =>
      obtain _ | ⟨own, _ | _⟩ := rooted
      rw [List.flatMap_singleton]
      exact own.layout
  | @cons start source gap stream next others document separates behind ih =>
      obtain _ | ⟨own, further⟩ := rooted
      obtain ⟨some, bytes⟩ := separates.bytes
      obtain ⟨byte, rest, rfl⟩ := List.exists_cons_of_ne_nil some
      rw [List.flatMap_cons]
      refine own.layout.append ?_ (.behind_blank (fun byte member => (bytes byte member).1)
        (ih further))
      rintro first member
      cases member
      exact (bytes _ List.mem_cons_self).2

theorem found (joined : Joined start installments stream)
    (rooted : List.Forall₂ Installment.Rooted installments roots) (before after : Bytes)
    (place : before.length = start) :
    roots.flatMap (·.found (before ++ (stream ++ after))) =
      installments.flatMap fun installment =>
        installment.document.found.map (Match.shift installment.start) := by
  induction joined generalizing roots before with
  | nil start =>
      cases rooted
      rfl
  | last start source document =>
      obtain _ | ⟨own, _ | _⟩ := rooted
      rw [List.flatMap_singleton, List.flatMap_singleton]
      exact own.found before after place
  | @cons start source gap stream next others document separates behind ih =>
      obtain _ | ⟨own, further⟩ := rooted
      have here := own.found before (gap ++ (stream ++ after)) place
      have later := ih further (before ++ (source ++ gap)) (by
        rw [List.length_append, List.length_append, place, Nat.add_assoc])
      simp only [List.append_assoc] at later ⊢
      rw [List.flatMap_cons, List.flatMap_cons, here, later]

end Joined

section Sums

variable {plan : Plan} {installments : List Installment} {roots : List plan.Root}
  (rooted : List.Forall₂ Installment.Rooted installments roots)
include rooted

theorem Joined.matched :
    (installments.map (·.document.counts.matched)).sum =
      (installments.flatMap fun installment =>
        installment.document.found.map (Match.shift installment.start)).length := by
  induction rooted with
  | nil => rfl
  | cons own _ ih =>
      rw [List.map_cons, List.sum_cons, List.flatMap_cons, List.length_append, List.length_map, ih,
        own.matched]

theorem Joined.skipped :
    (installments.map (·.document.counts.skipped)).sum = (roots.map (·.skipped)).sum := by
  induction rooted with
  | nil => rfl
  | cons own _ ih =>
      rw [List.map_cons, List.map_cons, List.sum_cons, List.sum_cons, ih, own.skipped]

end Sums

namespace Engine

theorem Reached.account_roots {engine : Engine} (reached : engine.Reached) {chunks : List Bytes}
    {roots : List engine.plan.Root}
    (lexed : Lexing.of chunks.flatten = ⟨roots.flatMap (·.tokens), none⟩) :
    engine.account chunks =
      ⟨roots.flatMap (·.found chunks.flatten), none,
        (roots.flatMap (·.found chunks.flatten)).length, (roots.map (·.skipped)).sum⟩ := by
  obtain ⟨next, walked, behind⟩ : ∃ next, Walker.walk engine.plan (Window.whole chunks.flatten)
      { Walker.new with single := false } _ = (next, none) ∧ Walker.Behind _ next _ roots :=
    Walker.walk_roots reached.distinct (Walker.awaitsRoot_new false) rfl roots
  have read : engine.plan.read false chunks.flatten = (next, none) := by
    refine Plan.read_of_walk ?_ ?_ (behind.endOfInput _)
    · rw [lexed]
      exact walked
    · rw [lexed]
  rw [reached.account_read, read, behind.latest, behind.matched, behind.skipped]
  simp only [Walker.new, List.append_nil, List.reverse_reverse, Nat.zero_add]

/-- A run refuses what follows the first root value. -/
theorem Reached.run_trailing {engine : Engine} (reached : engine.Reached) {source : Bytes}
    {root : engine.plan.Root} {token : Token} {others : List Token}
    (lexed : Lexing.of source = ⟨root.tokens ++ token :: others, none⟩) :
    (engine.run source).2 = .error (.structural (.trailingData token.span.start)) := by
  have awaits := Walker.awaitsRoot_new true
  have walked : Walker.walk engine.plan (Window.whole source) _ root.tokens = _ :=
    walk_root root.fits reached.distinct awaits root.spelled
  have inner : token.kind ≠ .endOfInput := by
    have all := Lexing.inner source
    rw [lexed] at all
    exact all token (List.mem_append_right _ List.mem_cons_self)
  have full : ¬ (Walker.root { Walker.new with single := true } engine.plan source root.tree
      root.tokens).Room := fun room =>
    Nat.succ_ne_zero 0 (room ⟨awaits.free.skip, awaits.free.raw⟩ awaits.stack)
  have refused := Walker.push_trailing engine.plan (Window.whole source) full rfl inner
  have run := reached.run_read source
  unfold Plan.read Plan.readOn at run
  rw [lexed] at run
  simp only [Walker.walk_append_ok walked, Walker.walk_cons_error refused] at run
  exact run

/-- Documents with white space between them are read, however the stream is cut, to the matches and
the counts of all of them together. A run of more than one of them stops at the first token of the
second one. -/
theorem account_joined {engine : Engine} (reached : engine.Reached)
    {installments : List Installment} {stream : Bytes} (joined : Joined 0 installments stream)
    (runs : ∀ installment ∈ installments,
      (engine.run installment.source).2 = .ok installment.document) :
    (∀ chunks : List Bytes, chunks.flatten = stream → engine.account chunks =
      ⟨installments.flatMap fun installment =>
          installment.document.found.map (Match.shift installment.start), none,
        (installments.map (·.document.counts.matched)).sum,
        (installments.map (·.document.counts.skipped)).sum⟩) ∧
      ∀ first second others, installments = first :: second :: others →
        ∃ token, (Lexing.of second.source).tokens.head? = some token ∧ (engine.run stream).2 =
          .error (.structural (.trailingData (second.start + token.span.start))) := by
  have each : ∀ installment ∈ installments,
      ∃ root : engine.plan.Root, installment.Rooted root :=
    fun installment member => exists_rooted reached installment.start (runs installment member)
  obtain ⟨roots, rooted⟩ : ∃ roots : List engine.plan.Root,
      List.Forall₂ Installment.Rooted installments roots := by
    clear joined runs
    induction installments with
    | nil => exact ⟨[], .nil⟩
    | cons installment rest ih =>
        obtain ⟨own, others⟩ := List.forall_mem_cons.mp each
        obtain ⟨root, first⟩ := own
        obtain ⟨roots, further⟩ := ih others
        exact ⟨root :: roots, .cons first further⟩
  have lexed : Lexing.of stream = ⟨roots.flatMap (·.tokens), none⟩ :=
    (joined.layout rooted).readOn
  constructor
  · rintro chunks rfl
    have found := joined.found rooted [] [] rfl
    rw [List.append_nil, List.nil_append] at found
    rw [reached.account_roots lexed, found, Joined.matched rooted, Joined.skipped rooted]
  · rintro first second others rfl
    obtain _ | ⟨own, _ | @⟨_, later, _, more, next, _⟩⟩ := rooted
    have some : (Lexing.of second.source).tokens ≠ [] := by
      intro none
      have spelled := later.spelled
      rw [next.tokens, none] at spelled
      exact later.fits.passable.ne_nil spelled.symm
    obtain ⟨token, rest, split⟩ := List.exists_cons_of_ne_nil some
    refine ⟨token, by rw [split]; rfl, ?_⟩
    rw [List.flatMap_cons, List.flatMap_cons, next.tokens, split] at lexed
    rw [reached.run_trailing lexed, Nat.add_comm]
    rfl

/-- Two documents with a no-break space and a line feed between them. -/
theorem account_joined_pair :
    let engine := new (Group.withField .empty "a" .leaf) (.ofMode .raw)
    let first : Bytes := [0x7B, 0x22, 0x61, 0x22, 0x3A, 0x31, 0x7D]
    let second : Bytes := [0x7B, 0x22, 0x61, 0x22, 0x3A, 0x32, 0x7D]
    (∀ chunks : List Bytes, chunks.flatten = first ++ ([0xC2, 0xA0, 0x0A] ++ second) →
      engine.account chunks =
        ⟨[.raw ⟨"a", ⟨5, 6⟩, [0x31]⟩, .raw ⟨"a", ⟨15, 16⟩, [0x32]⟩], none, 2, 0⟩) ∧
      (engine.run (first ++ ([0xC2, 0xA0, 0x0A] ++ second))).2 =
        .error (.structural (.trailingData 10)) := by
  intro engine first second
  have separates : Separates [0xC2, 0xA0, 0x0A] :=
    ⟨['\u00A0', '\n'], List.cons_ne_nil _ _,
      List.forall_mem_cons.mpr ⟨rfl, List.forall_mem_singleton.mpr rfl⟩, rfl⟩
  have reached : engine.Reached := .new (.leaf .empty "a") (.ofMode .raw)
  let alone (digit : UInt8) : Document :=
    ⟨.raw, some .single, [.raw ⟨"a", ⟨5, 6⟩, [digit]⟩], ⟨1, 7, 0⟩⟩
  have run {digit : UInt8} {number : Scalar}
      (lexed : Lexing.of [0x7B, 0x22, 0x61, 0x22, 0x3A, digit, 0x7D] =
        ⟨[⟨.openObject, 0, 1⟩, ⟨.string "a", 1, 4⟩, ⟨.colon, 4, 5⟩, ⟨number.kind, 5, 6⟩,
          ⟨.closeObject, 6, 7⟩], none⟩) :
      (engine.run [0x7B, 0x22, 0x61, 0x22, 0x3A, digit, 0x7D]).2 = .ok (alone digit) := by
    have json : (Tree.object [("a", .scalar number)]).IsJson :=
      .object (List.forall_mem_singleton.mpr (.scalar number))
    exact run_tree reached lexed (json.fits fun name other => by cases other) rfl
  have firstRun : (engine.run first).2 = .ok (alone 0x31) :=
    @run 0x31 ⟨.number (.unsigned 1), .integer 1, rfl⟩ rfl
  have secondRun : (engine.run second).2 = .ok (alone 0x32) :=
    @run 0x32 ⟨.number (.unsigned 2), .integer 2, rfl⟩ rfl
  have stream : Joined 0 [⟨0, first, alone 0x31⟩, ⟨10, second, alone 0x32⟩]
      (first ++ ([0xC2, 0xA0, 0x0A] ++ second)) :=
    .cons _ separates (.last 10 second _)
  have joined := account_joined reached stream
    (List.forall_mem_cons.mpr ⟨firstRun, List.forall_mem_singleton.mpr secondRun⟩)
  refine ⟨fun chunks cut => joined.1 chunks cut, ?_⟩
  obtain ⟨token, head, refused⟩ := joined.2 _ _ _ rfl
  cases head
  exact refused

end Engine
end JsonProjection
