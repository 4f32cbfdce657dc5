import JsonProjection.Proofs.Engine.Project
import JsonProjection.Proofs.Syntax.Parts
import JsonProjection.Proofs.Token.Follow
import JsonProjection.Proofs.Walk.Skipped
import Mathlib.Algebra.Order.Field.Rat
import Mathlib.Data.Rat.Cast.Order

/-!
What an engine counts as skipped.

Behind a run the bytes skipped are those of the values under keys that are not selected, each from
its first byte to its last. At any time they are no more than the bytes in front of the place of the
lexer, whatever errors the engine went through.
-/

namespace JsonProjection

open Lexer (Follows Tracks)

/-! ### Values that are not selected -/

/-- The values under keys that the group of their object does not select, in document order. Those
inside another one are not among them. -/
def Tree.unselected (group : Group) (tree : Tree) (tokens : List Token) : List Part :=
  (tree.parts group tokens).filter fun part => !part.selected

theorem Part.skipped_eq (parts : List Part) :
    Part.skipped parts =
      ((parts.filter fun part => !part.selected).map fun part => part.span.length).sum := by
  induction parts with
  | nil => rfl
  | cons part rest ih =>
      rw [Part.skipped, ih]
      cases selected : part.selected with
      | true => simp [selected]
      | false => simp [selected]

def Counts.skipShare (counts : Counts) : ℚ :=
  counts.skipped / counts.processed

namespace Engine

/-! ### At any time -/

/-- A lexer in a chunk of which `rest` is still to come and that ends at `limit`, and a walker that
has skipped only what is in front of the next token. -/
structure InInput (limit : Nat) (rest : Bytes) (lexer : Lexer) (walker : Walker) : Prop where
  sound : lexer.Sound
  room : lexer.position + rest.length ≤ limit
  skips : walker.SkipsWithin lexer.edge

theorem InInput.handle {plan : Plan} {window : Walk.Window} {rest : Bytes} {limit : Nat}
    {lexer next : Lexer} {walker : Walker} {token : Token}
    (skips : walker.SkipsWithin lexer.edge) (sound : next.Sound)
    (room : next.position + rest.length ≤ limit) (starts : lexer.edge ≤ token.span.start)
    (ordered : token.span.start ≤ token.span.stop) (ends : next.edge = token.span.stop) :
    Follows (handle plan window) (handle plan window) id id walker token ∧
      InInput limit rest next (handle plan window walker token).1 := by
  refine ⟨?_, sound, room, ?_⟩
  · unfold Follows
    rw [Option.map_id]
    rfl
  · rw [ends]
    exact Walker.push_skips (skips.later starts) plan window ordered

theorem handle_input (plan : Plan) (window : Walk.Window) (limit : Nat) :
    Tracks (handle plan window) (handle plan window) id id (InInput limit) where
  step := by
    intro byte rest lexer walker input
    have room := input.room
    rw [List.length_cons] at room
    have moves := Lexer.step_moves input.sound byte
    have edges := lexer.step_edge byte
    generalize lexer.step byte = result at moves edges ⊢
    rcases result with ⟨next, _ | token | token | error⟩
    · exact ⟨moves.2, by omega, input.skips.later edges⟩
    · obtain ⟨position, sound, ordered, _⟩ := moves
      exact InInput.handle input.skips sound (by omega) edges.1 ordered edges.2
    · obtain ⟨position, sound, ordered, _⟩ := moves
      exact InInput.handle input.skips sound (by rw [List.length_cons]; omega) edges.1 ordered edges.2
    · refine ⟨moves.2, by omega, ?_⟩
      rw [edges]
      exact input.skips
  number := by
    intro lexer walker pending value input under
    have started : pending.start < lexer.position := by
      apply input.sound
      simp only [Lexer.pendingStart?, under, Option.map_some]
    apply InInput.handle input.skips
    · rintro start ⟨⟩
    · exact input.room
    · exact Nat.le_of_eq (Lexer.edge_of_pending under)
    · exact Nat.le_of_lt started
    · rfl
  ending := by
    intro lexer walker input
    have same : (handle plan window walker ⟨.endOfInput, lexer.position, lexer.position⟩).1 =
        walker := Walker.endOfInput_fst walker _
    refine ⟨?_, ?_⟩
    · unfold Follows
      rw [Option.map_id]
      rfl
    · rw [same]
      exact input

/-- Between two operations: the skipped bytes lie in front of the next token, and the lexer stands
inside the bytes that were fed. -/
structure Settled (engine : Engine) : Prop where
  sound : engine.lexer.Sound
  inside : engine.lexer.position ≤ engine.processed
  skips : engine.walker.SkipsWithin engine.lexer.edge

theorem Settled.of_walker {engine : Engine} {walker : Walker} (settled : engine.Settled)
    (skipped : walker.skipped = engine.walker.skipped)
    (skip : walker.skip = engine.walker.skip) : Settled { engine with walker } := by
  refine ⟨settled.sound, settled.inside, ?_, ?_⟩
  · rw [skipped]
    exact settled.skips.le
  · rw [skipped, skip]
    exact settled.skips.stretch

theorem InInput.settled {plan : Plan} {lexer : Lexer} {walker : Walker} {rest : Bytes}
    {processed : Nat} (input : InInput processed rest lexer walker) :
    Settled ⟨plan, lexer, walker, processed⟩ :=
  ⟨input.sound, Nat.le_trans (Nat.le_add_right _ _) input.room, input.skips⟩

theorem Settled.feed {engine : Engine} (settled : engine.Settled) (chunk : Bytes) :
    (engine.feed chunk).1.Settled := by
  have start : InInput (engine.processed + chunk.length) chunk engine.lexer engine.walker :=
    ⟨settled.sound, Nat.add_le_add_right settled.inside _, settled.skips⟩
  have raises (error : LexError) : DocumentError.lex error = id (DocumentError.lex error) := rfl
  obtain ⟨-, rest, input⟩ :=
    (handle_input engine.plan ⟨chunk.toByteArray, engine.lexer.position⟩ _).push raises
      engine.lexer engine.walker chunk start
  unfold Engine.feed
  simp only
  generalize Lexer.push (Engine.handle engine.plan ⟨chunk.toByteArray, engine.lexer.position⟩)
    DocumentError.lex engine.lexer engine.walker chunk = result at input ⊢
  rcases result with ⟨lexer, walker, _ | error⟩
  · have ended := Walker.endChunk_withCarry walker engine.plan.mode
      ⟨chunk.toByteArray, engine.lexer.position⟩ lexer.pendingStart? []
    have through : Settled ⟨engine.plan, lexer, walker, engine.processed + chunk.length⟩ :=
      input.settled
    exact through.of_walker (congrArg (·.skipped) ended) (congrArg (·.skip) ended)
  · exact input.settled

theorem Settled.finish {engine : Engine} (settled : engine.Settled) :
    engine.finish.1.Settled := by
  have start : InInput engine.processed [] engine.lexer engine.walker :=
    ⟨settled.sound, settled.inside, settled.skips⟩
  have raises (error : LexError) : DocumentError.lex error = id (DocumentError.lex error) := rfl
  obtain ⟨-, input⟩ := (handle_input engine.plan ⟨ByteArray.empty, engine.lexer.position⟩ _).finish
    raises engine.lexer engine.walker start
  unfold Engine.finish
  simp only
  generalize Lexer.finish (Engine.handle engine.plan ⟨ByteArray.empty, engine.lexer.position⟩)
    DocumentError.lex engine.lexer engine.walker = result at input ⊢
  exact input.settled

theorem reset_settled (engine : Engine) : engine.reset.Settled := by
  refine ⟨Lexer.sound_reset _, Nat.le_refl 0, Nat.le_refl 0, ?_⟩
  rintro stretch ⟨⟩

theorem run_settled (engine : Engine) (source : Bytes) : (engine.run source).1.Settled := by
  have start : engine.single.Settled := engine.reset_settled.of_walker rfl rfl
  have fed := start.feed source
  unfold Engine.run
  rcases feeding : engine.single.feed source with ⟨middle, _ | error⟩
  · rw [feeding] at fed
    have ended := fed.finish
    rcases finishing : middle.finish with ⟨last, _ | error⟩
    · rw [finishing] at ended
      simp only [finishing]
      exact ended.of_walker rfl rfl
    · rw [finishing] at ended
      simp only [finishing]
      exact ended
  · rw [feeding] at fed
    exact fed

theorem Reached.settled {engine : Engine} (reached : engine.Reached) : engine.Settled := by
  induction reached with
  | @new group built options =>
      refine ⟨Lexer.sound_new _, Nat.le_refl 0, Nat.le_refl 0, ?_⟩
      rintro stretch ⟨⟩
  | feed _ chunk ih => exact ih.feed chunk
  | finish _ ih => exact ih.finish
  | take _ ih => exact ih.of_walker rfl rfl
  | reset _ ih => exact reset_settled _
  | run _ source ih => exact run_settled _ source
  | execute _ source ih => exact run_settled _ source

/-! ### Behind a run -/

theorem run_counts {engine : Engine} {source : Bytes} {document : Document}
    (run : (engine.run source).2 = .ok document) :
    (engine.run source).1.counts = document.counts := by
  unfold Engine.run at run ⊢
  rcases feeding : engine.single.feed source with ⟨middle, _ | error⟩
  · rcases finishing : middle.finish with ⟨last, _ | error⟩
    · simp only [feeding, finishing] at run ⊢
      cases run
      rfl
    · simp only [feeding, finishing] at run
      cases run
  · simp only [feeding] at run
    cases run

theorem Reached.account_skipped {engine other : Engine} (reached : engine.Reached)
    (otherReached : other.Reached) (plan : other.plan = engine.plan) {chunks : List Bytes}
    {document : Document} (run : (engine.run chunks.flatten).2 = .ok document) :
    (other.account chunks).skipped = document.counts.skipped := by
  have account := otherReached.account_read chunks
  rw [plan] at account
  rw [reached.run_read] at run
  rcases read : engine.plan.read true chunks.flatten with ⟨walker, _ | error⟩
  · obtain ⟨streamRead, -⟩ := Plan.read_of_single read
    rw [read] at run
    cases run
    rw [account, streamRead]
    rfl
  · rw [read] at run
    cases run

/-- Where a run of a document succeeds, the bytes skipped are those of the values that are not
selected, which follow each other without overlap; and so they are however the document is cut into
chunks. At any time, behind errors too, no more is skipped than was read. -/
theorem Reached.skipped_unselected {engine : Engine} (reached : engine.Reached) :
    (∀ source document, (engine.run source).2 = .ok document →
      ∃ (tokens : List Token) (tree : Tree), Lexing.of source = ⟨tokens, none⟩ ∧
        tokens.map (·.kind) = tree.kinds ∧
        tree.Fits engine.plan.mode (.project engine.plan.group) ∧
        (engine.run source).1.counts.skipped =
          ((tree.unselected engine.plan.group tokens).map (·.span.length)).sum ∧
        (∀ other : Engine, other.Reached → other.plan = engine.plan →
          ∀ chunks, chunks.flatten = source → (other.account chunks).skipped =
            ((tree.unselected engine.plan.group tokens).map (·.span.length)).sum) ∧
        (∀ part ∈ tree.unselected engine.plan.group tokens, part.Stands tokens ∧
          part.span.start < part.span.stop ∧ part.span.stop ≤ source.length) ∧
        (tree.unselected engine.plan.group tokens).Pairwise
          fun one other => one.span.stop ≤ other.span.start) ∧
      engine.counts.skipped ≤ engine.lexer.position ∧
      engine.lexer.position ≤ engine.counts.processed ∧
      0 ≤ engine.counts.skipShare ∧ engine.counts.skipShare ≤ 1 := by
  have settled := reached.settled
  have skipped : engine.counts.skipped ≤ engine.lexer.position :=
    Nat.le_trans settled.skips.le (Lexer.edge_le_position settled.sound)
  refine ⟨?_, skipped, settled.inside, ?_, ?_⟩
  · intro source document run
    obtain ⟨tokens, tree, lexed, spelled, fits⟩ := run_fitting reached run
    have stand := fits.parts_stand spelled
    have whole := run_tree reached lexed fits spelled
    rw [run] at whole
    have counted : document.counts.skipped =
        ((tree.unselected engine.plan.group tokens).map (·.span.length)).sum := by
      cases whole
      exact Part.skipped_eq _
    have chain : Token.Chain 0 tokens source.length := by
      have all := Lexing.chain source
      rw [lexed] at all
      exact all
    refine ⟨tokens, tree, lexed, spelled, fits, ?_, ?_, ?_, ?_⟩
    · rw [run_counts run]
      exact counted
    · rintro other otherReached plan chunks rfl
      rw [reached.account_skipped otherReached plan run]
      exact counted
    · intro part member
      have stands := stand part (List.mem_filter.mp member).1
      exact ⟨stands, stands.bounds chain⟩
    · apply List.Pairwise.filter
      exact Tree.parts_ordered chain fun part member => (stand part member).ne_nil
  · exact div_nonneg (Nat.cast_nonneg _) (Nat.cast_nonneg _)
  · apply div_le_one_of_le₀
    · exact Nat.cast_le.mpr (Nat.le_trans skipped settled.inside)
    · exact Nat.cast_nonneg _

/-- In `{"a":[1, 2],"b":3}` the six bytes under the first key are skipped, the blank among them. -/
theorem skipped_unselected_array :
    ∃ (tokens : List Token) (tree : Tree),
      ((new (Group.withField .empty "b" .leaf) (.ofMode .raw)).run
        [0x7B, 0x22, 0x61, 0x22, 0x3A, 0x5B, 0x31, 0x2C, 0x20, 0x32, 0x5D, 0x2C, 0x22, 0x62, 0x22,
          0x3A, 0x33, 0x7D]).1.counts.skipped =
        ((tree.unselected (Group.withField .empty "b" .leaf) tokens).map (·.span.length)).sum ∧
      ((tree.unselected (Group.withField .empty "b" .leaf) tokens).map (·.span.length)).sum = 6 := by
  have reached : (new (Group.withField .empty "b" .leaf) (.ofMode .raw)).Reached :=
    .new (.leaf .empty "b") _
  obtain ⟨tokens, tree, _, _, _, skipped, _⟩ := reached.skipped_unselected.1
    [0x7B, 0x22, 0x61, 0x22, 0x3A, 0x5B, 0x31, 0x2C, 0x20, 0x32, 0x5D, 0x2C, 0x22, 0x62, 0x22,
      0x3A, 0x33, 0x7D] _ rfl
  exact ⟨tokens, tree, skipped, skipped.symm.trans rfl⟩

end Engine
end JsonProjection
