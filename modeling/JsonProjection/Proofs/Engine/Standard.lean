import JsonProjection.Proofs.Engine.Leaves
import JsonProjection.Proofs.Json.Reader

/-!
Raw leaves read as standard JSON.

A raw leaf that standard JSON reads at all has the value that is built in its place, as long as its
escapes stand for themselves, no number is a negative zero, and both readings agree on its doubles.
-/

namespace JsonProjection

open Json Walk

/-- What a run that builds values has for the field of a raw leaf where the leaf ends: the value
that it has just built for this occurrence of the field. -/
def Engine.built? (builder : Engine) (source : Bytes) (leaf : RawMatch) : Option Value :=
  let before := (Lexing.of source).tokens.filter (·.span.stop ≤ leaf.span.stop)
  (Walker.walk builder.plan (Window.whole source) { Walker.new with single := true }
    before).1.field? leaf.key

theorem Walker.Visits.built {builder : Engine} {source : Bytes} {leaves : List Part}
    (visits : Visits builder.plan source { Walker.new with single := true }
      (Lexing.of source).tokens leaves) (lexed : (Lexing.of source).error? = none) {leaf : Part}
    (member : leaf ∈ leaves) :
    leaf.tree.IsJson ∧
      builder.built? source ⟨leaf.key, leaf.span, leaf.span.of source⟩ = some leaf.tree.whole ∧
      ∃ tokens, Layout 0 (leaf.span.of source) tokens ∧
        tokens.map (·.kind) = leaf.tree.kinds := by
  obtain ⟨front, back, middle, split, walked, awaits, json, spelled, field⟩ :=
    visits.mem_field member
  have some : leaf.tokens ≠ [] := fun empty => json.kinds_ne_nil (by rw [← spelled, empty]; rfl)
  refine ⟨json, ?_, ?_⟩
  · have chain := Lexing.chain source
    rw [split] at chain
    have before : ((Lexing.of source).tokens.filter fun token =>
        decide (token.span.stop ≤ leaf.span.stop)) = front ++ leaf.tokens := by
      rw [split]
      exact chain.upTo some
    unfold Engine.built?
    dsimp only
    rw [before, walk_append_ok walked, walk_kept json awaits spelled]
    exact field.complete leaf.tree.whole
  · have layout : Layout 0 source (Lexing.of source).tokens :=
      layout_of_readOn (show Lexing.of source = ⟨_, none⟩ by rw [← lexed])
    rw [split] at layout
    obtain ⟨tokens, moved, kinds⟩ := (layout.cover some).move 0
    exact ⟨tokens, moved, kinds.trans spelled⟩

namespace Engine

/-- Where values can be built of a source, every raw leaf that standard JSON reads is read as the
value that is built in its place. -/
theorem run_standard {builder taker : Engine} (building : builder.Reached)
    (taking : taker.Reached) (builds : builder.plan.mode = .materialize)
    (takes : taker.plan.mode = .raw) (same : taker.plan.group = builder.plan.group)
    {source : Bytes} {document : Document} (built : (builder.run source).2 = .ok document) :
    ∃ handed, (taker.run source).2 = .ok handed ∧ ∀ leaf ∈ handed.raws,
      ∃ value, builder.built? source leaf = some value ∧
        ∀ read, leaf.value? = some read → plainEscapes leaf.bytes = true →
          [0x2D, 0x30] ∉ numberTexts leaf.bytes →
          (∀ text ∈ numberTexts leaf.bytes, sameDouble text = true) → read = value := by
  obtain ⟨tokens, tree, lexed, spelled, fits⟩ := run_fitting building built
  have tokens_eq : (Lexing.of source).tokens = tokens := by rw [lexed]
  have complete : (Lexing.of source).error? = none := by rw [lexed]
  subst tokens_eq
  have fitsRaw : tree.Fits taker.plan.mode (.project taker.plan.group) := by
    rw [builds] at fits
    rw [takes, same]
    exact fits.raw
  -- Raw mode delivers the selected parts and no values.
  have found : Part.found taker.plan.mode source
        (tree.parts taker.plan.group (Lexing.of source).tokens) ++ taker.plan.values tree =
      (tree.leaves builder.plan.group (Lexing.of source).tokens).map (Part.leaf source) := by
    rw [Plan.values, takes, same, List.append_nil]
    rfl
  have visits : Walker.Visits builder.plan source { Walker.new with single := true } _ _ :=
    Walker.visits_root builds fits building.distinct (Walker.awaitsRoot_new true) spelled
  refine ⟨_, run_tree taking lexed fitsRaw spelled, ?_⟩
  intro leaf member
  obtain ⟨delivered, among, raw⟩ := List.mem_filterMap.mp member
  rw [found] at among
  obtain ⟨part, inside, rfl⟩ := List.mem_map.mp among
  cases raw
  obtain ⟨json, value, own, layout, kinds⟩ := visits.built complete inside
  refine ⟨part.tree.whole, value, fun read reads plain noZero doubles => ?_⟩
  have agrees : ∀ text ∈ numberTexts (part.span.of source), Agrees text :=
    fun text number => ⟨fun zero => noZero (zero ▸ number), doubles text number⟩
  exact layout.readStrict agrees plain json kinds reads

/-- The array in `{"a":[-7,1.5,"\""]}`. -/
theorem run_standard_escaped :
    ∃ value,
      RawMatch.value? ⟨"a", ⟨5, 18⟩,
        [0x5B, 0x2D, 0x37, 0x2C, 0x31, 0x2E, 0x35, 0x2C, 0x22, 0x5C, 0x22, 0x22, 0x5D]⟩ =
        some value ∧
      (new (Group.withField .empty "a" .leaf) (.ofMode .materialize)).built?
        [0x7B, 0x22, 0x61, 0x22, 0x3A, 0x5B, 0x2D, 0x37, 0x2C, 0x31, 0x2E, 0x35, 0x2C, 0x22, 0x5C,
          0x22, 0x22, 0x5D, 0x7D]
        ⟨"a", ⟨5, 18⟩,
          [0x5B, 0x2D, 0x37, 0x2C, 0x31, 0x2E, 0x35, 0x2C, 0x22, 0x5C, 0x22, 0x22, 0x5D]⟩ =
        some value := by
  generalize sourceEq : ([0x7B, 0x22, 0x61, 0x22, 0x3A, 0x5B, 0x2D, 0x37, 0x2C, 0x31, 0x2E, 0x35,
    0x2C, 0x22, 0x5C, 0x22, 0x22, 0x5D, 0x7D] : Bytes) = source
  generalize leafEq : (⟨"a", ⟨5, 18⟩, [0x5B, 0x2D, 0x37, 0x2C, 0x31, 0x2E, 0x35, 0x2C, 0x22, 0x5C,
    0x22, 0x22, 0x5D]⟩ : RawMatch) = leaf
  have builds : ((new (Group.withField .empty "a" .leaf) (.ofMode .materialize)).run
      source).2.toOption.isSome = true := by
    rw [← sourceEq]
    decide +kernel
  have takes : ((new (Group.withField .empty "a" .leaf) (.ofMode .raw)).run
      source).2.toOption.map (·.raws) = some [leaf] := by
    rw [← sourceEq, ← leafEq]
    decide +kernel
  have agrees : plainEscapes leaf.bytes = true ∧ [0x2D, 0x30] ∉ numberTexts leaf.bytes ∧
      ∀ text ∈ numberTexts leaf.bytes, sameDouble text = true := by
    rw [← leafEq]
    decide +kernel
  have reads : leaf.value?.isSome = true := by
    rw [← leafEq]
    rfl
  cases built : ((new (Group.withField .empty "a" .leaf) (.ofMode .materialize)).run source).2 with
  | error error =>
      rw [built] at builds
      cases builds
  | ok document =>
      obtain ⟨handed, run, each⟩ := run_standard (.new (.leaf .empty "a") (.ofMode .materialize))
        (.new (.leaf .empty "a") (.ofMode .raw)) rfl rfl rfl built
      rw [run] at takes
      have raws : handed.raws = [leaf] := Option.some.inj takes
      have member : leaf ∈ handed.raws := by
        rw [raws]
        exact List.mem_singleton_self leaf
      obtain ⟨value, has, same⟩ := each leaf member
      obtain ⟨read, own⟩ := Option.isSome_iff_exists.mp reads
      rw [same read own agrees.1 agrees.2.1 agrees.2.2] at own
      exact ⟨value, own, has⟩

end Engine
end JsonProjection
