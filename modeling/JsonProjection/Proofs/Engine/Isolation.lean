import JsonProjection.Proofs.Engine.Project
import JsonProjection.Proofs.Syntax.Narrow

/-!
Asking for less gives less of the same.

Where a run succeeds under some group, it succeeds under every group contained in it: what the
smaller group does not ask for is passed over, however it was walked before. The value is the same
value restricted, and the raw matches are those that stand at the leaves of the smaller group.
-/

namespace JsonProjection

open Walk

/-- What a document under a larger group says of the one under a smaller group. -/
structure Document.Narrows (part whole : Document) (small large : Group) (source : Bytes) :
    Prop where
  mode : part.mode = whole.mode
  value : whole.mode = .materialize → ∃ value, whole.value? = some value ∧
    part.value? = some (value.restrict small)
  /-- The raw matches stand at places of one tree that the tokens of the source spell. -/
  leaves : whole.mode = .raw → ∃ (tokens : List Token) (tree : Tree),
    Lexing.of source = ⟨tokens, none⟩ ∧
    tokens.map (·.kind) = tree.kinds ∧ tree.Fits .raw (.project large) ∧
    whole.found = (tree.places large tokens).map (fun place => place.part.leaf source) ∧
    part.found = ((tree.places large tokens).filter fun place => small.hasLeaf place.path).map
      fun place => place.part.leaf source

namespace Engine

theorem run_mode {engine : Engine} (reached : engine.Reached) {source : Bytes}
    {document : Document} (run : (engine.run source).2 = .ok document) :
    document.mode = engine.plan.mode := by
  have outcome := reached.run_read source
  rw [run] at outcome
  rcases read : engine.plan.read true source with ⟨walker, _ | error⟩
  · rw [read] at outcome
    cases outcome
    rfl
  · rw [read] at outcome
    cases outcome

theorem run_places {engine : Engine} (reached : engine.Reached) (raw : engine.plan.mode = .raw)
    {source : Bytes} {tokens : List Token} (lexed : Lexing.of source = ⟨tokens, none⟩)
    {tree : Tree} (fits : tree.Fits engine.plan.mode (.project engine.plan.group))
    (spelled : tokens.map (·.kind) = tree.kinds) :
    ∃ document, (engine.run source).2 = .ok document ∧
      document.found = (tree.places engine.plan.group tokens).map
        fun place => place.part.leaf source := by
  refine ⟨_, run_tree reached lexed fits spelled, ?_⟩
  have leaves := tree.map_part_places engine.plan.group tokens
  have found : (tree.places engine.plan.group tokens).map (fun place => place.part.leaf source) =
      (tree.leaves engine.plan.group tokens).map (Part.leaf source) := by
    rw [← leaves, List.map_map]
    rfl
  rw [found, Plan.values, raw, List.append_nil]
  rfl

/-- A run that succeeds under a group succeeds under each group contained in it, and finds the same
but for what is not asked for. -/
theorem run_contained {asking having : Engine} (askingReached : asking.Reached)
    (havingReached : having.Reached) (mode : asking.plan.mode = having.plan.mode)
    (contained : asking.plan.group.Contained having.plan.group) {source : Bytes}
    {whole : Document} (run : (having.run source).2 = .ok whole) :
    ∃ part, (asking.run source).2 = .ok part ∧
      part.Narrows whole asking.plan.group having.plan.group source := by
  obtain ⟨tokens, tree, lexed, spelled, fits⟩ := run_fitting havingReached run
  have wholeMode := run_mode havingReached run
  have smaller : tree.Fits asking.plan.mode (.project asking.plan.group) := by
    rw [mode]
    exact fits.narrow contained
  cases how : having.plan.mode with
  | materialize =>
      obtain ⟨part, partRun, partProjects⟩ :=
        run_fits askingReached (mode.trans how) lexed smaller spelled
      have partMode := run_mode askingReached partRun
      obtain ⟨own, ownRun, projects⟩ := run_fits havingReached how lexed fits spelled
      rw [run] at ownRun
      cases ownRun
      refine ⟨part, partRun, partMode.trans (mode.trans wholeMode.symm), fun _ => ?_,
        fun other => ?_⟩
      · refine ⟨_, projects.value, ?_⟩
        rw [partProjects.value, tree.restrict_project contained havingReached.distinct]
      · rw [wholeMode, how] at other
        cases other
  | raw =>
      obtain ⟨part, partRun, partFound⟩ :=
        run_places askingReached (mode.trans how) lexed smaller spelled
      have partMode := run_mode askingReached partRun
      obtain ⟨own, ownRun, found⟩ := run_places havingReached how lexed fits spelled
      rw [run] at ownRun
      cases ownRun
      refine ⟨part, partRun, partMode.trans (mode.trans wholeMode.symm), fun other => ?_,
        fun _ => ?_⟩
      · rw [wholeMode, how] at other
        cases other
      · refine ⟨tokens, tree, lexed, spelled, ?_, found, ?_⟩
        · rw [← how]
          exact fits
        · rw [tree.filter_places contained, partFound]

/-- In `{"b":[},"a":1}` the brackets behind `b` do not match, and neither group asks for it. -/
theorem run_contained_mismatched :
    ∃ whole part,
      ((new ((Group.withField .empty "c" .leaf).withField "a" .leaf) (.ofMode .materialize)).run
        [0x7B, 0x22, 0x62, 0x22, 0x3A, 0x5B, 0x7D, 0x2C, 0x22, 0x61, 0x22, 0x3A, 0x31, 0x7D]).2 =
          .ok whole ∧
      ((new (Group.withField .empty "a" .leaf) (.ofMode .materialize)).run
        [0x7B, 0x22, 0x62, 0x22, 0x3A, 0x5B, 0x7D, 0x2C, 0x22, 0x61, 0x22, 0x3A, 0x31, 0x7D]).2 =
          .ok part ∧
      part.Narrows whole (Group.withField .empty "a" .leaf)
        ((Group.withField .empty "c" .leaf).withField "a" .leaf)
        [0x7B, 0x22, 0x62, 0x22, 0x3A, 0x5B, 0x7D, 0x2C, 0x22, 0x61, 0x22, 0x3A, 0x31, 0x7D] := by
  have whole : ((new ((Group.withField .empty "c" .leaf).withField "a" .leaf)
      (.ofMode .materialize)).run [0x7B, 0x22, 0x62, 0x22, 0x3A, 0x5B, 0x7D, 0x2C, 0x22, 0x61, 0x22,
        0x3A, 0x31, 0x7D]).2 = .ok _ := rfl
  obtain ⟨part, run, narrows⟩ := run_contained
    (.new (.leaf .empty "a") (.ofMode .materialize))
    (.new (.leaf (.leaf .empty "c") "a") (.ofMode .materialize)) rfl ⟨rfl, trivial⟩ whole
  exact ⟨_, part, whole, run, narrows⟩

end Engine
end JsonProjection
