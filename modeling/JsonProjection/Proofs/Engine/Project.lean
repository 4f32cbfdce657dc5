import JsonProjection.Proofs.Engine.Chunks
import JsonProjection.Proofs.Walk.Completion
import JsonProjection.Proofs.Walk.Document

/-!
Running a document projects it.

What a run gives is the projection of the tree that the tokens of the document spell, whatever
stands between the tokens.
-/

namespace JsonProjection

open Walk

theorem Plan.read_tree {plan : Plan} (distinct : plan.group.Distinct) {source : Bytes}
    {tokens : List Token} (lexed : Lexing.of source = ⟨tokens, none⟩) {tree : Tree}
    (fits : tree.Fits plan.mode (.project plan.group)) (spelled : tokens.map (·.kind) = tree.kinds)
    (single : Bool) :
    plan.read single source =
      (Walker.root { Walker.new with single } plan source tree tokens, none) := by
  have awaits := Walker.awaitsRoot_new single
  have walked : Walker.walk plan (Window.whole source) _ tokens = _ :=
    walk_root fits distinct awaits spelled
  unfold Plan.read Plan.readOn
  rw [lexed]
  simp only [walked, Walker.endOfInput_root awaits, Option.map_none]

/-- A document that is the projection of a tree: the root as a whole, and one match for it, or for
each of its items if it is an array. -/
structure Document.Projects (document : Document) (group : Group) (tree : Tree) : Prop where
  value : document.value? = some (tree.project group)
  found : document.found = (tree.records group).map .value
  matched : document.counts.matched = (tree.records group).length

theorem Document.Projects.raws {document : Document} {group : Group} {tree : Tree}
    (projects : document.Projects group tree) : document.raws = [] := by
  rw [Document.raws, projects.found, List.filterMap_map]
  exact List.filterMap_eq_nil_iff.mpr fun _ _ => rfl

namespace Engine

theorem run_fitting {engine : Engine} (reached : engine.Reached) {source : Bytes}
    {document : Document} (run : (engine.run source).2 = .ok document) :
    ∃ (tokens : List Token) (tree : Tree), Lexing.of source = ⟨tokens, none⟩ ∧
      tokens.map (·.kind) = tree.kinds ∧
      tree.Fits engine.plan.mode (.project engine.plan.group) := by
  have outcome := reached.run_read source
  rw [run] at outcome
  rcases read : engine.plan.read true source with ⟨last, _ | error⟩
  · obtain ⟨walked, lexical, ended⟩ := Plan.read_ok read
    obtain ⟨tree, fits, spelled⟩ := Walker.walk_accepts (Lexing.inner source) walked ended
    refine ⟨(Lexing.of source).tokens, tree, ?_, spelled, fits⟩
    rw [← lexical]
  · rw [read] at outcome
    cases outcome

theorem run_tree {engine : Engine} (reached : engine.Reached) {source : Bytes}
    {tokens : List Token} (lexed : Lexing.of source = ⟨tokens, none⟩) {tree : Tree}
    (fits : tree.Fits engine.plan.mode (.project engine.plan.group))
    (spelled : tokens.map (·.kind) = tree.kinds) :
    (engine.run source).2 = .ok ⟨engine.plan.mode, some tree.shape,
      Part.found engine.plan.mode source (tree.parts engine.plan.group tokens) ++
        engine.plan.values tree,
      ⟨(Part.found engine.plan.mode source (tree.parts engine.plan.group tokens)).length +
          (engine.plan.values tree).length, source.length,
        Part.skipped (tree.parts engine.plan.group tokens)⟩⟩ := by
  have run := reached.run_read source
  rw [Plan.read_tree reached.distinct lexed fits spelled true] at run
  rw [run]
  simp only [Walker.root, Walker.pass, Walker.deliverAll, Walker.new, List.append_nil,
    List.reverse_append, List.reverse_reverse, Nat.zero_add]

theorem run_fits {engine : Engine} (reached : engine.Reached)
    (builds : engine.plan.mode = .materialize) {source : Bytes} {tokens : List Token}
    (lexed : Lexing.of source = ⟨tokens, none⟩) {tree : Tree}
    (fits : tree.Fits engine.plan.mode (.project engine.plan.group))
    (spelled : tokens.map (·.kind) = tree.kinds) :
    ∃ document, (engine.run source).2 = .ok document ∧
      document.Projects engine.plan.group tree := by
  have found : Part.found engine.plan.mode source (tree.parts engine.plan.group tokens) = [] := by
    rw [builds]
    rfl
  have values : engine.plan.values tree = (tree.records engine.plan.group).map .value := by
    rw [Plan.values, builds]
  have run := run_tree reached lexed fits spelled
  rw [found, values, List.nil_append, List.length_nil, Nat.zero_add, List.length_map] at run
  have delivered (items : List Json.Value) :
      (items.map Match.value).filterMap Match.value? = items := by
    rw [List.filterMap_map]
    exact List.filterMap_some
  refine ⟨_, run, ?_, rfl, rfl⟩
  unfold Document.value?
  simp only [delivered, builds]
  cases fits with
  | scalar _ own => rfl
  | array inner => simp only [Tree.shape, Tree.records, Tree.project, Tree.projectItems_eq]
  | object inner => rfl

theorem run_projects {engine : Engine} (reached : engine.Reached)
    (builds : engine.plan.mode = .materialize) {source : Bytes} {document : Document}
    (run : (engine.run source).2 = .ok document) :
    ∃ tree, document.Projects engine.plan.group tree := by
  obtain ⟨tokens, tree, lexed, spelled, fits⟩ := run_fitting reached run
  obtain ⟨own, same, projects⟩ := run_fits reached builds lexed fits spelled
  rw [run] at same
  cases same
  exact ⟨tree, projects⟩

/-- A run that builds values succeeds on every JSON document and gives its projection. -/
theorem run_project {engine : Engine} (reached : engine.Reached)
    (builds : engine.plan.mode = .materialize) {source : Bytes} {tokens : List Token}
    (lexed : Lexing.of source = ⟨tokens, none⟩) {tree : Tree} (json : tree.IsJson)
    (spelled : tokens.map (·.kind) = tree.kinds) :
    ∃ document, (engine.run source).2 = .ok document ∧
      document.Projects engine.plan.group tree :=
  run_fits reached builds lexed (json.fits fun name other => by cases other) spelled

/-- In `{"a":true,"a":null}` the second value of the key counts. -/
theorem run_project_repeated :
    ∃ document, ((new (Group.withField .empty "a" .leaf) (.ofMode .materialize)).run
        [0x7B, 0x22, 0x61, 0x22, 0x3A, 0x74, 0x72, 0x75, 0x65, 0x2C, 0x22, 0x61, 0x22, 0x3A,
          0x6E, 0x75, 0x6C, 0x6C, 0x7D]).2 = .ok document ∧
      document.value? = some (.object [("a", .null)]) := by
  have json : (Tree.object [("a", .scalar ⟨.true, .bool true, rfl⟩),
      ("a", .scalar ⟨.null, .null, rfl⟩)]).IsJson :=
    .object (List.forall_mem_cons.mpr ⟨.scalar _, List.forall_mem_cons.mpr ⟨.scalar _,
      fun _ member => absurd member List.not_mem_nil⟩⟩)
  have lexed : Lexing.of
      [0x7B, 0x22, 0x61, 0x22, 0x3A, 0x74, 0x72, 0x75, 0x65, 0x2C, 0x22, 0x61, 0x22, 0x3A, 0x6E,
        0x75, 0x6C, 0x6C, 0x7D] =
      ⟨[⟨.openObject, 0, 1⟩, ⟨.string "a", 1, 4⟩, ⟨.colon, 4, 5⟩, ⟨.true, 5, 9⟩, ⟨.comma, 9, 10⟩,
        ⟨.string "a", 10, 13⟩, ⟨.colon, 13, 14⟩, ⟨.null, 14, 18⟩, ⟨.closeObject, 18, 19⟩], none⟩ :=
    rfl
  obtain ⟨document, run, projects⟩ :=
    run_project (.new (.leaf .empty "a") (.ofMode .materialize)) rfl lexed json rfl
  exact ⟨document, run, projects.value⟩

end Engine
end JsonProjection
