import JsonProjection.Proofs.Engine.Chunks
import JsonProjection.Proofs.Engine.Project
import JsonProjection.Proofs.Token.Layout
import JsonProjection.Proofs.Walk.Completion
import JsonProjection.Proofs.Walk.Leaves

/-!
Raw leaves are the leaves that values are built of.

Where values can be built of a source, its raw leaves can be handed out, and these are the source
bytes of the values that the walk keeps whole. The bytes of a leaf spell its value in any document.
-/

namespace JsonProjection

open Lexer Walk

/-! ### A leaf by itself -/

theorem Layout.member {place : Nat} {bytes quoted : Bytes} {tokens : List Token}
    (layout : Layout place bytes tokens) {name : String} (spells : Spells quoted (.string name)) :
    ∃ others, Lexing.of (0x7B :: (quoted ++ 0x3A :: (bytes ++ [0x7D]))) = ⟨others, none⟩ ∧
      others.map (·.kind) =
        .openObject :: .string name :: .colon :: (tokens.map (·.kind) ++ [.closeObject]) := by
  have noNumber {kind : Token.Kind} {rest : Bytes} (other : ∀ value, kind ≠ .number value) :
      ∀ value, kind = .number value → EndsNumber rest :=
    fun value same => absurd same (other value)
  obtain ⟨others, moved, kinds⟩ := layout.move (0 + 1 + quoted.length + 1)
  have closing (place : Nat) : Layout place [0x7D] [⟨.closeObject, place, place + 1⟩] :=
    .token (.mark rfl) (noNumber fun _ other => by cases other) (.nil _)
  have ends : EndsNumber [0x7D] := by
    intro byte member
    cases member
    rfl
  have inner := moved.append ends (closing _)
  have value : Layout (0 + 1 + quoted.length) (0x3A :: (bytes ++ [0x7D])) _ :=
    .token (.mark (rfl : Lead.of 0x3A = .mark .colon)) (noNumber fun _ other => by cases other) inner
  have named := Layout.token spells (noNumber fun _ other => by cases other) value
  have whole : Layout 0 (0x7B :: (quoted ++ 0x3A :: (bytes ++ [0x7D]))) _ :=
    .token (.mark (rfl : Lead.of 0x7B = .mark .openObject)) (noNumber fun _ other => by cases other)
      named
  refine ⟨_, whole.readOn, ?_⟩
  simp only [List.map_cons, List.map_append, List.map_nil, kinds]

namespace Engine

theorem run_member {reader : Engine} (reached : reader.Reached)
    (builds : reader.plan.mode = .materialize) {name : String}
    (leaf : reader.plan.group.get? name = some .leaf) {quoted : Bytes}
    (spells : Spells quoted (.string name)) {place : Nat} {bytes : Bytes} {tokens : List Token}
    (layout : Layout place bytes tokens) {tree : Tree} (json : tree.IsJson)
    (spelled : tokens.map (·.kind) = tree.kinds) :
    ∃ document, (reader.run (0x7B :: (quoted ++ 0x3A :: (bytes ++ [0x7D])))).2 = .ok document ∧
      document.value? = some (.object [(name, tree.whole)]) := by
  obtain ⟨others, lexed, kinds⟩ := layout.member spells
  have object : (Tree.object [(name, tree)]).IsJson := by
    refine .object fun member inside => ?_
    cases List.mem_singleton.mp inside
    exact json
  have whole : others.map (·.kind) = (Tree.object [(name, tree)]).kinds := by
    rw [kinds, spelled]
    rfl
  have present : name ∈ reader.plan.group.names := by
    by_cases present : name ∈ reader.plan.group.names
    · exact present
    · rw [Group.get?, Group.lookup_eq_none.mpr present] at leaf
      cases leaf
  have projected : (Tree.object [(name, tree)]).project reader.plan.group =
      .object [(name, tree.whole)] := by
    rw [Tree.project]
    simp only [Tree.projectMembers, leaf,
      Group.arrange_singleton reached.distinct.nodup present tree.whole]
  obtain ⟨document, run, projects⟩ := run_fits reached builds lexed
    (object.fits fun name other => by cases other) whole
  exact ⟨document, run, by rw [projects.value, projected]⟩

end Engine

/-! ### The leaves of a document -/

/-- What holds of a leaf in a source of some tokens. -/
structure Part.Exact (plan : Plan) (source : Bytes) (tokens : List Token) (leaf : Part) : Prop where
  /-- Its span lies inside the source and is not empty. -/
  proper : leaf.span.start < leaf.span.stop
  inside : leaf.span.stop ≤ source.length
  /-- Its tokens are among those of the source. Where values are built, the walk along them builds
  the value that they spell. -/
  built : ∃ front back middle, tokens = front ++ (leaf.tokens ++ back) ∧
    Walker.walk plan (Window.whole source) { Walker.new with single := true } front =
      (middle, none) ∧ middle.Awaits plan.mode .keep ∧
    leaf.tokens.map (·.kind) = leaf.tree.kinds ∧
    middle.walk plan (Window.whole source) leaf.tokens =
      (middle.complete (some leaf.tree.whole), none)
  /-- Its bytes by themselves, as the value of a leaf field, give that value again. -/
  read : ∀ (reader : Engine) (name : String) (quoted : Bytes), reader.Reached →
    reader.plan.mode = .materialize → reader.plan.group.get? name = some .leaf →
    Spells quoted (.string name) →
    ∃ document, (reader.run (0x7B :: (quoted ++ 0x3A :: (leaf.span.of source ++ [0x7D])))).2 =
      .ok document ∧ document.value? = some (.object [(name, leaf.tree.whole)])

/-- A source whose tokens spell a tree: what is built of it, and what is handed out of it in raw
mode. -/
structure Engine.HandsOut (builder taker : Engine) (source : Bytes) (document : Document)
    (tokens : List Token) (tree : Tree) : Prop where
  lexed : Lexing.of source = ⟨tokens, none⟩
  spelled : tokens.map (·.kind) = tree.kinds
  fits : tree.Fits .materialize (.project builder.plan.group)
  projects : document.Projects builder.plan.group tree
  /-- The raw matches are the leaves of the selection in document order. -/
  run : ∃ handed, (taker.run source).2 = .ok handed ∧
    handed.found = (tree.leaves builder.plan.group tokens).map (Part.leaf source)
  stream : ∀ chunks : List Bytes, chunks.flatten = source →
    (taker.account chunks).error? = none ∧
      (taker.account chunks).found =
        (tree.leaves builder.plan.group tokens).map (Part.leaf source)
  /-- Each leaf ends before the next one starts. -/
  ordered : (tree.leaves builder.plan.group tokens).Pairwise
    (fun left right => left.span.stop ≤ right.span.start)
  exact : ∀ leaf ∈ tree.leaves builder.plan.group tokens,
    leaf.Exact builder.plan source tokens

namespace Engine

/-- Where values can be built of a source, raw mode hands out the leaves that they are built of,
however the source is cut. -/
theorem run_handsOut {builder taker : Engine} (building : builder.Reached)
    (taking : taker.Reached) (builds : builder.plan.mode = .materialize)
    (takes : taker.plan.mode = .raw) (same : taker.plan.group = builder.plan.group)
    {source : Bytes} {document : Document} (built : (builder.run source).2 = .ok document) :
    ∃ tokens tree, builder.HandsOut taker source document tokens tree := by
  have run := building.run_read source
  rcases read : builder.plan.read true source with ⟨last, _ | error⟩
  · obtain ⟨walked, lexical, ended⟩ := Plan.read_ok read
    obtain ⟨tree, fits, spelled⟩ := Walker.walk_accepts (Lexing.inner source) walked ended
    have lexed : Lexing.of source = ⟨(Lexing.of source).tokens, none⟩ := by rw [← lexical]
    obtain ⟨shown, shows, projects⟩ := run_fits building builds lexed fits spelled
    rw [built] at shows
    cases shows
    have fitsBuilt : tree.Fits .materialize (.project builder.plan.group) := by
      rw [← builds]
      exact fits
    have fitsRaw : tree.Fits taker.plan.mode (.project taker.plan.group) := by
      rw [takes, same]
      exact fitsBuilt.raw
    -- Raw mode delivers the selected parts and no values.
    have found : Part.found taker.plan.mode source
          (tree.parts taker.plan.group (Lexing.of source).tokens) ++ taker.plan.values tree =
        (tree.leaves builder.plan.group (Lexing.of source).tokens).map (Part.leaf source) := by
      rw [Plan.values, takes, same, List.append_nil]
      rfl
    have visits : Walker.Visits builder.plan source { Walker.new with single := true } _ _ :=
      Walker.visits_root builds fits building.distinct (Walker.awaitsRoot_new true) spelled
    obtain ⟨ordered, bounds⟩ := visits.ordered (Lexing.chain source)
    refine ⟨_, tree, lexed, spelled, fitsBuilt, projects, ?_, ?_, ordered, ?_⟩
    · exact ⟨_, run_tree taking lexed fitsRaw spelled, found⟩
    · intro chunks cut
      have account := taking.account_read chunks
      rw [cut, Plan.read_tree taking.distinct lexed fitsRaw spelled false] at account
      rw [account]
      refine ⟨rfl, Eq.trans ?_ found⟩
      simp only [Walker.root, Walker.pass, Walker.deliverAll, Walker.new, List.append_nil,
        List.reverse_append, List.reverse_reverse]
    · intro leaf member
      obtain ⟨front, back, middle, split, through, awaits, json, own⟩ := visits.mem member
      have some : leaf.tokens ≠ [] := fun empty =>
        json.kinds_ne_nil (by rw [← own, empty]; rfl)
      have layout : Layout 0 source (Lexing.of source).tokens := layout_of_readOn lexed
      rw [split] at layout
      refine ⟨(bounds leaf member).2.1, (bounds leaf member).2.2,
        ⟨front, back, middle, split, through, awaits, own, Walker.walk_kept json awaits own⟩, ?_⟩
      exact fun reader name quoted reached values field spells =>
        run_member reached values field spells (layout.cover some) json own
  · rw [run, read] at built
    cases built

/-- The array in `{"a":[12]}` is handed out. -/
theorem run_handsOut_array :
    ∃ document tokens tree,
      (new (Group.withField .empty "a" .leaf) (.ofMode .materialize)).HandsOut
        (new (Group.withField .empty "a" .leaf) (.ofMode .raw))
        [0x7B, 0x22, 0x61, 0x22, 0x3A, 0x5B, 0x31, 0x32, 0x5D, 0x7D] document tokens tree :=
  ⟨_, run_handsOut (.new (.leaf .empty "a") (.ofMode .materialize))
    (.new (.leaf .empty "a") (.ofMode .raw)) rfl rfl rfl rfl⟩

end Engine
end JsonProjection
