import JsonProjection.Proofs.Engine.Drain
import JsonProjection.Proofs.Engine.Reached
import JsonProjection.Proofs.Source.Reads
import JsonProjection.Subscription

/-!
The items of a source depend on its bytes only.

A subscription takes the matches behind every chunk. None is lost where a chunk fails and none
comes twice: the items are those of the bytes read at once, with the first error behind them.
-/

namespace JsonProjection

/-! ### Items of bytes -/

/-- The items of a whole source: the matches of reading it at once, and the error in it. -/
def Items.ofSource (plan : Plan) (bytes : Bytes) : Items :=
  ⟨(plan.read false bytes).1.latest.reverse, (plan.read false bytes).2.map .document⟩

/-- The items of a source that breaks off behind some bytes: the matches of a new engine that is fed
these at once and not ended, and the error in them, or else the reason of the source. -/
def Items.ofPrefix (group : Group) (options : EngineOptions) (bytes : Bytes) (reason : String) :
    Items :=
  let (engine, error?) := (Engine.new group options).feed bytes
  ⟨engine.take.1, some ((error?.map .document).getD (.source reason))⟩

theorem Engine.new_within (group : Group) (options : EngineOptions) (source : Bytes) :
    (Engine.new group options).Within source source :=
  ⟨Lexer.sound_new _, StringCache.faithful_new _ _, ⟨[], rfl, rfl⟩, rfl⟩

theorem Engine.feedAll_new (group : Group) (options : EngineOptions) (chunks : List Bytes) :
    ((Engine.new group options).feedAll chunks).1.walker.latest =
        ((Engine.new group options).feed chunks.flatten).1.walker.latest ∧
      ((Engine.new group options).feedAll chunks).2 =
        ((Engine.new group options).feed chunks.flatten).2 := by
  have within := Engine.new_within group options (chunks.flatten ++ [])
  have pieces := within.feedAll.1
  have whole := within.feed.1
  have same := pieces.trans whole.symm
  constructor
  · exact congrArg (fun result => result.1.latest) same
  · exact congrArg (fun result => result.2) same

namespace Subscription

theorem itemsFrom_append {engine : Engine} (drained : engine.walker.latest = [])
    (latest : List Match) {source : List Arrival} (unbroken : Arrival.Unbroken source)
    (rest : List Arrival) :
    itemsFrom engine latest (source ++ rest) =
      match (engine.withEarlier latest).feedAll (source.map Arrival.bytes) with
      | (engine, some error) => ⟨engine.take.1, some (.document error)⟩
      | (engine, none) => itemsFrom engine.take.2 engine.walker.latest rest := by
  induction source generalizing engine latest with
  | nil =>
      have earlier : (engine.withEarlier latest).walker.latest = latest := by
        show engine.walker.latest ++ latest = latest
        rw [drained, List.nil_append]
      have taken : (engine.withEarlier latest).take.2 = engine := by
        show { engine with walker := { engine.walker with latest := [] } } = engine
        rw [← drained]
      simp only [List.map_nil, Engine.feedAll, earlier, taken, List.nil_append]
  | cons arrival others ih =>
      cases arrival with
      | failure reason => exact absurd List.mem_cons_self (unbroken reason)
      | chunk bytes =>
          have fed := engine.feed_withEarlier latest bytes
          rcases own : engine.feed bytes with ⟨next, _ | error⟩
          · rw [own] at fed
            have taken : next.take.2.walker.latest = [] := rfl
            simp only [List.cons_append, List.map_cons, itemsFrom, Engine.feedAll, Arrival.bytes,
              own, fed]
            exact ih taken (next.walker.latest ++ latest) unbroken.rest
          · rw [own] at fed
            simp only [List.cons_append, List.map_cons, itemsFrom, Engine.feedAll, Arrival.bytes,
              own, fed]
            rfl

theorem itemsFrom_source (group : Group) (options : EngineOptions) {source : List Arrival}
    (unbroken : Arrival.Unbroken source) :
    itemsFrom (Engine.new group options) [] source =
      Items.ofSource ⟨group, options.mode⟩ (Arrival.joined source) := by
  have drained : (Engine.new group options).walker.latest = [] := rfl
  have items := itemsFrom_append drained [] unbroken []
  rw [List.append_nil] at items
  have streamed := (Engine.new_within group options (Arrival.joined source)).stream
  have lexed : (Engine.new group options).lexer.readOn (Arrival.joined source) =
      Lexing.of (Arrival.joined source) :=
    (Lexer.Same.new options.cacheCapacity options.cacheLengthBound 0 0).readOn _
  have streamed : _ = (Engine.new group options).plan.readOn (Arrival.joined source) _ _ :=
    streamed.trans (congrArg _ lexed)
  have read : Items.ofSource ⟨group, options.mode⟩ (Arrival.joined source) =
      ⟨((Engine.new group options).stream (source.map Arrival.bytes)).1.take.1,
        ((Engine.new group options).stream (source.map Arrival.bytes)).2.map .document⟩ :=
    congrArg (fun result => (⟨result.1.latest.reverse, result.2.map .document⟩ : Items))
      streamed.symm
  rw [items, read]
  unfold Engine.stream
  -- Nothing was delivered in front of a new engine.
  have start : (Engine.new group options).withEarlier [] = Engine.new group options := rfl
  rw [start]
  rcases (Engine.new group options).feedAll (source.map Arrival.bytes) with ⟨engine, _ | error⟩
  · have ended := engine.take.2.finish_withEarlier engine.walker.latest
    rw [Engine.take_withEarlier] at ended
    simp only [ended, itemsFrom]
    rfl
  · rfl

theorem itemsFrom_failure (group : Group) (options : EngineOptions) {source : List Arrival}
    (unbroken : Arrival.Unbroken source) (reason : String) (rest : List Arrival) :
    itemsFrom (Engine.new group options) [] (source ++ .failure reason :: rest) =
      Items.ofPrefix group options (Arrival.joined source) reason := by
  have drained : (Engine.new group options).walker.latest = [] := rfl
  have start : (Engine.new group options).withEarlier [] = Engine.new group options := rfl
  obtain ⟨found, failed⟩ := Engine.feedAll_new group options (source.map Arrival.bytes)
  rw [itemsFrom_append drained [] unbroken, start]
  have fed : Items.ofPrefix group options (Arrival.joined source) reason =
      ⟨((Engine.new group options).feed (source.map Arrival.bytes).flatten).1.walker.latest.reverse,
        some ((((Engine.new group options).feed (source.map Arrival.bytes).flatten).2.map
          .document).getD (.source reason))⟩ := rfl
  rw [fed, ← found, ← failed]
  rcases (Engine.new group options).feedAll (source.map Arrival.bytes) with ⟨engine, _ | error⟩
  · rfl
  · rfl

end Subscription

/-- The items of a subscription depend on the bytes of the source, and on the reason where it breaks
off. They come in any chunks, and through a reader of any size. -/
theorem subscribe_joined (query : String) (options : EngineOptions) {source : List Arrival}
    (unbroken : Arrival.Unbroken source) :
    (subscribe query options source =
        (compile query).map fun group =>
          Items.ofSource ⟨group, options.mode⟩ (Arrival.joined source)) ∧
      (∀ reason rest, subscribe query options (source ++ .failure reason :: rest) =
        (compile query).map fun group =>
          Items.ofPrefix group options (Arrival.joined source) reason) ∧
      ∀ other, Arrival.Unbroken other → Arrival.joined other = Arrival.joined source →
        subscribe query options other = subscribe query options source ∧
          ∀ size, subscribe query options (Arrival.reads size other) =
            subscribe query options source := by
  have whole : ∀ other, Arrival.Unbroken other → subscribe query options other =
      (compile query).map fun group =>
        Items.ofSource ⟨group, options.mode⟩ (Arrival.joined other) := by
    intro other otherUnbroken
    unfold subscribe
    congr 1
    funext group
    exact Subscription.itemsFrom_source group options otherUnbroken
  refine ⟨whole source unbroken, ?_, ?_⟩
  · intro reason rest
    unfold subscribe
    congr 1
    funext group
    exact Subscription.itemsFrom_failure group options unbroken reason rest
  · intro other otherUnbroken joined
    constructor
    · rw [whole other otherUnbroken, joined, ← whole source unbroken]
    · intro size
      rw [whole _ (otherUnbroken.reads size), Arrival.joined_reads, joined,
        ← whole source unbroken]

set_option maxRecDepth 20000 in
/-- In `[1,2}` two items are finished in front of the mismatch, the second one in its chunk. Broken
off in front of it, the source has one item. -/
theorem subscribe_joined_mismatched :
    let cut : List Arrival := [.chunk [0x5B, 0x31, 0x2C], .chunk [0x32, 0x7D]]
    let front : List Arrival := [.chunk [0x5B, 0x31], .chunk [0x2C, 0x32]]
    subscribe "\x7ba\x7d" (.ofMode .materialize) cut =
        .ok ⟨[.value (.integer 1), .value (.integer 2)],
          some (.document (.structural (.mismatchedClose 4)))⟩ ∧
      subscribe "\x7ba\x7d" (.ofMode .materialize) (Arrival.reads 2 cut) =
        subscribe "\x7ba\x7d" (.ofMode .materialize) cut ∧
      subscribe "\x7ba\x7d" (.ofMode .materialize) (front ++ [.failure "gone"]) =
        .ok ⟨[.value (.integer 1)], some (.source "gone")⟩ := by
  intro cut front
  have unbroken : Arrival.Unbroken cut := Arrival.unbroken_of_chunks rfl
  have unbroken' : Arrival.Unbroken front := Arrival.unbroken_of_chunks rfl
  obtain ⟨whole, _, pieces⟩ := subscribe_joined "\x7ba\x7d" (.ofMode .materialize) unbroken
  have broken := (subscribe_joined "\x7ba\x7d" (.ofMode .materialize) unbroken').2.1 "gone" []
  exact ⟨whole.trans rfl, (pieces cut unbroken rfl).2 2, broken.trans rfl⟩

end JsonProjection
