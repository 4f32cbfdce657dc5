import JsonProjection.Proofs.Engine.Depth
import JsonProjection.Proofs.Walk.Capture

/-!
What an engine keeps of its source.

Between two chunks the carried bytes are those of the raw leaf under way, from its first byte to the
last one fed, and there are none without such a leaf. The tokens in front of the leaf are behind it
for good, so that nothing of them is carried.
-/

namespace JsonProjection

open Walk

namespace Engine

variable {engine next : Engine} {bytes chunk : Bytes} {tokens : List Token}

/-- A raw leaf of this name is under way from an offset on. -/
def OpenLeaf (engine : Engine) (name : String) (start : Nat) : Prop :=
  engine.walker.OpenLeaf engine.lexer.pendingStart? name start

/-! ### At the end of the bytes so far -/

theorem Within.position_eq (inside : engine.Within bytes []) :
    engine.lexer.position = bytes.length := by
  obtain ⟨before, split, place⟩ := inside.place
  rw [split, List.append_nil, place]

theorem Within.extend (inside : engine.Within bytes []) (chunk : Bytes) :
    engine.Within (bytes ++ chunk) (chunk ++ []) := by
  have position := inside.position_eq
  refine ⟨inside.sound, inside.faithful, ⟨bytes, by rw [List.append_nil], position.symm⟩, ?_⟩
  have carries := inside.carries
  unfold Carries at carries ⊢
  rw [carries]
  cases engine.walker.rawStart? engine.plan.mode engine.lexer.pendingStart? with
  | none => rfl
  | some start =>
      rw [carried, carried, List.take_append_of_le_length (Nat.le_of_eq position)]

/-- What holds of an engine that no error struck, behind some bytes and tokens: it stands at the end
of the bytes and carries the right ones of them, and the tokens stand in front of the token under
way, those of a captured leaf from its bracket on. -/
structure Keeping (engine : Engine) (bytes : Bytes) (tokens : List Token) : Prop where
  within : engine.Within bytes []
  chain : Token.Chain 0 tokens engine.lexer.edge
  captures : engine.walker.Captures tokens

theorem Keeping.feed (keeping : engine.Keeping bytes tokens)
    (fed : engine.feed chunk = (next, none)) :
    next.Keeping (bytes ++ chunk) (tokens ++ (engine.lexer.scan chunk).1) := by
  obtain ⟨own, walker, scanned, walked, same⟩ := feed_walk fed
  have advance := Lexer.scan_advance keeping.within.sound scanned
  have within := (keeping.within.extend chunk).feed.2 (by rw [fed])
  have captures := Walker.walk_captures keeping.captures advance.inner walked
  -- The end of the chunk touches nothing but the carried bytes.
  have ended := Walker.endChunk_withCarry walker engine.plan.mode (engine.window chunk)
    next.lexer.pendingStart? []
  rw [← same] at ended
  rw [fed] at within
  rw [scanned]
  exact ⟨within.1, keeping.chain.append advance.chain,
    captures.congr (congrArg (·.stack) ended) (congrArg (·.skip) ended)
      (congrArg (·.raw) ended)⟩

theorem Keeping.finish (keeping : engine.Keeping bytes tokens)
    (ended : engine.finish = (next, none)) :
    next.Keeping bytes (tokens ++ engine.lexer.flush.1) := by
  obtain ⟨flushed, lexer, walked, -⟩ := finish_walk ended fun error none => nomatch none
  have advance := Lexer.flush_advance keeping.within.sound flushed
  have plan : next.plan = engine.plan := (congrArg (·.1.plan) ended).symm
  have inside : engine.Within bytes ([] ++ []) := keeping.within
  have carry := (inside.walk_scan (Nat.le_refl 0) advance walked).2 rfl
  refine ⟨⟨?_, ?_, ?_, ?_⟩, ?_, Walker.walk_captures keeping.captures advance.inner walked⟩
  · rw [lexer]
    exact advance.sound
  · rw [lexer]
    exact keeping.within.faithful
  · rw [lexer]
    exact keeping.within.place
  · rw [Carries, lexer, plan]
    exact carry
  · rw [lexer]
    exact keeping.chain.append advance.chain

theorem Clean.keeping (clean : engine.Clean bytes tokens) : engine.Keeping bytes tokens := by
  induction clean with
  | reset reached =>
      exact ⟨reached.reset_within [], Nat.le_refl 0, .of_idle rfl []⟩
  | single reached =>
      exact ⟨reached.single_within [], Nat.le_refl 0, .of_idle rfl []⟩
  | feed _ fed ih => exact ih.feed fed
  | finish _ ended ih => exact ih.finish ended
  | take _ ih =>
      exact ⟨⟨ih.within.sound, ih.within.faithful, ih.within.place, ih.within.carries⟩, ih.chain,
        ih.captures⟩

theorem Clean.feedAll {chunks : List Bytes} (clean : engine.Clean bytes tokens)
    (fed : engine.feedAll chunks = (next, none)) :
    ∃ more, next.Clean (bytes ++ chunks.flatten) (tokens ++ more) := by
  induction chunks generalizing engine bytes tokens with
  | nil =>
      cases fed
      refine ⟨[], ?_⟩
      rw [List.flatten_nil, List.append_nil, List.append_nil]
      exact clean
  | cons chunk rest ih =>
      unfold Engine.feedAll at fed
      rcases first : engine.feed chunk with ⟨middle, _ | error⟩
      · rw [first] at fed
        obtain ⟨more, further⟩ := ih (clean.feed first) fed
        rw [List.append_assoc, List.append_assoc] at further
        exact ⟨_, further⟩
      · rw [first] at fed
        cases fed

/-! ### The raw leaf under way -/

theorem carried_all (bytes : Bytes) (start : Nat) :
    carried bytes bytes.length (some start) = (⟨start, bytes.length⟩ : Span).of bytes := by
  have all : (bytes.drop start).take (bytes.length - start) = bytes.drop start :=
    List.take_of_length_le (Nat.le_of_eq List.length_drop)
  rw [carried, List.take_length, Span.of, Span.length, all]

theorem Keeping.carry (keeping : engine.Keeping bytes tokens) (raw : engine.plan.mode = .raw)
    {name : String} {start : Nat} (leaf : engine.OpenLeaf name start) :
    engine.walker.carry.reverse = (⟨start, engine.lexer.position⟩ : Span).of bytes := by
  have carries := keeping.within.carries
  rw [Carries, raw, Walker.rawStart?_iff_openLeaf.mpr ⟨name, leaf⟩,
    keeping.within.position_eq] at carries
  rw [carries, keeping.within.position_eq, carried_all]

theorem Keeping.carry_nil (keeping : engine.Keeping bytes tokens) (raw : engine.plan.mode = .raw)
    (idle : ∀ name start, ¬engine.OpenLeaf name start) : engine.walker.carry = [] := by
  have carries := keeping.within.carries
  rw [Carries, raw] at carries
  cases started : engine.walker.rawStart? .raw engine.lexer.pendingStart? with
  | none =>
      rw [started] at carries
      exact List.reverse_eq_nil_iff.mp carries
  | some start =>
      obtain ⟨name, leaf⟩ := Walker.rawStart?_iff_openLeaf.mp started
      exact absurd leaf (idle name start)

theorem Keeping.split (keeping : engine.Keeping bytes tokens) {name : String} {start : Nat}
    (leaf : engine.OpenLeaf name start) :
    engine.walker.AtLeaf name ∧ start < engine.lexer.position ∧
      ∃ front inside, tokens = front ++ inside ∧ (∀ token ∈ front, token.span.stop ≤ start) ∧
        (inside = [] ∨ Token.Unclosed start inside) := by
  have sound := keeping.within.sound
  cases leaf with
  | container captures =>
      obtain ⟨-, leaf, front, inside, split, unclosed, -⟩ := keeping.captures _ _ captures
      obtain ⟨opening, rest, first, place, -⟩ := unclosed.opening
      have chain := keeping.chain
      rw [split, first] at chain
      obtain ⟨middle, before, behind⟩ := chain.split
      have within := behind.mem List.mem_cons_self
      have edge := Lexer.edge_le_position sound
      refine ⟨leaf, by omega, front, inside, split, fun token member => ?_, Or.inr unclosed⟩
      have bounds := before.mem member
      omega
  | scalar free leaf under =>
      have edge : engine.lexer.edge = start := by
        rw [Lexer.edge, under, Option.getD_some]
      refine ⟨leaf, sound start under, tokens, [], (List.append_nil tokens).symm, ?_, Or.inl rfl⟩
      intro token member
      rw [← edge]
      exact (keeping.chain.mem member).2.2

/-- In raw mode an engine carries, from chunk to chunk, the bytes of the raw leaf under way up to
its place in the source, and none if no raw leaf is under way. There is one such leaf at most; its
value is the one that the innermost container waits for, and all tokens so far end in front of it
but for those since a bracket that opened it and is still open. -/
theorem Clean.carry_leaf (clean : engine.Clean bytes tokens) (raw : engine.plan.mode = .raw) :
    engine.lexer.position = bytes.length ∧
      (∀ name start, engine.OpenLeaf name start →
        engine.walker.carry.reverse = (⟨start, engine.lexer.position⟩ : Span).of bytes ∧
          (engine.walker.AtLeaf name ∧ start < engine.lexer.position ∧
            ∃ front inside, tokens = front ++ inside ∧
              (∀ token ∈ front, token.span.stop ≤ start) ∧
              (inside = [] ∨ Token.Unclosed start inside)) ∧
          ∀ other place, engine.OpenLeaf other place → other = name ∧ place = start) ∧
      ((∀ name start, ¬engine.OpenLeaf name start) → engine.walker.carry = []) := by
  have keeping := clean.keeping
  refine ⟨keeping.within.position_eq, fun name start leaf => ?_, keeping.carry_nil raw⟩
  exact ⟨keeping.carry raw leaf, keeping.split leaf, fun other place second => leaf.unique second⟩

/-- Of `{"b":7,"a":[1`, `,2` and `],"a":"x` just the string is carried that began in the chunk in
which the array ended. -/
theorem carry_leaf_string :
    ∃ fed : Engine, (new (Group.withField .empty "a" .leaf) (.ofMode .raw)).reset.feedAll
        [[0x7B, 0x22, 0x62, 0x22, 0x3A, 0x37, 0x2C, 0x22, 0x61, 0x22, 0x3A, 0x5B, 0x31],
          [0x2C, 0x32], [0x5D, 0x2C, 0x22, 0x61, 0x22, 0x3A, 0x22, 0x78]] = (fed, none) ∧
      fed.OpenLeaf "a" 21 ∧ fed.walker.carry.reverse = [0x22, 0x78] := by
  have reached : (new (Group.withField .empty "a" .leaf) (.ofMode .raw)).Reached :=
    .new (.leaf .empty "a") _
  have quiet : ((new (Group.withField .empty "a" .leaf) (.ofMode .raw)).reset.feedAll
      [[0x7B, 0x22, 0x62, 0x22, 0x3A, 0x37, 0x2C, 0x22, 0x61, 0x22, 0x3A, 0x5B, 0x31],
        [0x2C, 0x32], [0x5D, 0x2C, 0x22, 0x61, 0x22, 0x3A, 0x22, 0x78]]).2 = none := by
    rfl
  obtain ⟨tokens, clean⟩ := Clean.feedAll (.reset reached) (Prod.ext rfl quiet)
  have carries := (clean.carry_leaf rfl).2.1 "a" 21
  refine ⟨_, Prod.ext rfl quiet, ?leaf, (carries ?leaf).1.trans rfl⟩
  exact Walker.OpenLeaf.scalar ⟨rfl, rfl⟩ ⟨_, _, rfl, _, 0, rfl, rfl, rfl, rfl⟩ rfl

end Engine
end JsonProjection
