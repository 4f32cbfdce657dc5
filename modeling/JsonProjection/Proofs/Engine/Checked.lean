import JsonProjection.Proofs.Engine.Operations
import JsonProjection.Proofs.Token.Follow
import JsonProjection.Proofs.Walk.Bounded

/-!
No use of an engine leaves the bounds.

A checked engine gives up at the first step that is out of bounds. It never does, whatever it is
asked for and whatever errors it went through: the lexer stands where the next chunk begins, and the
walker is bounded by that place.
-/

namespace JsonProjection

open Lexer (Follows Tracks)

namespace Engine

/-! ### The checked engine -/

inductive Halt where
  | document (error : DocumentError)
  | outOfBounds

def handle? (plan : Plan) (window : Walk.Window) (walker : Walker) (token : Token) :
    Walker × Option Halt :=
  match walker.push? plan window token with
  | none => (walker, some .outOfBounds)
  | some (walker, error?) => (walker, error?.map fun error => .document (.structural error))

def feed? (engine : Engine) (chunk : Bytes) : Option (Engine × Option DocumentError) :=
  match engine.lexer.push (handle? engine.plan (engine.window chunk)) (.document <| .lex ·)
    engine.walker chunk with
  | (_, _, some .outOfBounds) => none
  | (lexer, walker, some (.document error)) =>
    some (⟨engine.plan, lexer, walker, engine.processed + chunk.length⟩, some error)
  | (lexer, walker, none) => do
    let walker ← walker.endChunk? engine.plan.mode (engine.window chunk) lexer.pendingStart?
    some (⟨engine.plan, lexer, walker, engine.processed + chunk.length⟩, none)

def finish? (engine : Engine) : Option (Engine × Option DocumentError) :=
  match engine.lexer.finish (handle? engine.plan ⟨ByteArray.empty, engine.lexer.position⟩)
    (.document <| .lex ·) engine.walker with
  | (_, _, some .outOfBounds) => none
  | (lexer, walker, some (.document error)) => some ({ engine with lexer, walker }, some error)
  | (lexer, walker, none) => some ({ engine with lexer, walker }, none)

def run? (engine : Engine) (source : Bytes) : Option (Engine × Except DocumentError Document) := do
  match ← engine.single.feed? source with
  | (engine, some error) => some (engine, .error error)
  | (engine, none) =>
    match ← engine.finish? with
    | (engine, some error) => some (engine, .error error)
    | (engine, none) =>
      let (found, engine) := engine.take
      some (engine, .ok ⟨engine.plan.mode, engine.walker.shape, found, engine.counts⟩)

def perform? (engine : Engine) : Operation → Option (Engine × Answer)
  | .feed chunk => do
    let (engine, error?) ← engine.feed? chunk
    some (engine, .done error?)
  | .finish => do
    let (engine, error?) ← engine.finish?
    some (engine, .done error?)
  | .take => some (engine.take.2, .taken engine.take.1)
  | .reset => some (engine.reset, .done none)
  | .run source => do
    let (engine, outcome) ← engine.run? source
    some (engine, .document outcome)
  | .execute source => do
    let (engine, outcome) ← engine.run? source
    some (engine, .value (outcome.map Document.value?))

def observed? (engine : Engine) : List Operation → Option (List Observation)
  | [] => some []
  | operation :: rest => do
    let (next, answer) ← engine.perform? operation
    let behind ← next.observed? rest
    some (⟨answer, next.depth, next.lexer.position, next.counts⟩ :: behind)

/-! ### It never gives up -/

/-- A chunk of which `rest` is still to come: it reaches as far as its window, and the walker is
bounded by the place of the lexer in it. -/
structure InChunk (window : Walk.Window) (rest : Bytes) (lexer : Lexer) (walker : Walker) :
    Prop where
  sound : lexer.Sound
  base : window.base ≤ lexer.position
  room : lexer.position + rest.length ≤ window.base + window.bytes.size
  bounded : walker.Bounded lexer.position

theorem InChunk.handle {plan : Plan} {window : Walk.Window} {rest : Bytes} {lexer : Lexer}
    {walker : Walker} (chunk : InChunk window rest lexer walker) {token : Token}
    (ordered : token.span.start ≤ token.span.stop) (stop : token.span.stop = lexer.position) :
    Follows (handle plan window) (handle? plan window) id .document walker token ∧
      InChunk window rest lexer (handle plan window walker token).1 := by
  have room := chunk.room
  have inside : token.Inside window := by
    refine ⟨ordered, ?_, ?_⟩
    · rw [stop]
      exact chunk.base
    · omega
  have bounded : walker.Bounded token.span.stop := by
    rw [stop]
    exact chunk.bounded
  constructor
  · unfold Follows Engine.handle handle?
    simp only [id_eq, Walker.push?_eq bounded plan inside]
    rcases walker.push plan window token with ⟨next, _ | error⟩ <;> rfl
  · have pushed := Walker.push_bounded bounded plan window ordered
    rw [stop] at pushed
    exact ⟨chunk.sound, chunk.base, chunk.room, pushed⟩

theorem handle?_tracks (plan : Plan) (window : Walk.Window) :
    Tracks (handle plan window) (handle? plan window) id .document (InChunk window) where
  step := by
    intro byte rest lexer walker chunk
    have room := chunk.room
    have base := chunk.base
    rw [List.length_cons] at room
    have moves := Lexer.step_moves chunk.sound byte
    generalize lexer.step byte = result at moves ⊢
    rcases result with ⟨next, _ | token | token | error⟩
    · obtain ⟨position, sound⟩ := moves
      refine ⟨sound, ?_, ?_, chunk.bounded.later ?_⟩ <;> omega
    · obtain ⟨position, sound, ordered, stop⟩ := moves
      have moved : InChunk window rest next walker := by
        refine ⟨sound, ?_, ?_, chunk.bounded.later ?_⟩ <;> omega
      exact moved.handle ordered stop
    · obtain ⟨position, sound, ordered, stop⟩ := moves
      have moved : InChunk window (byte :: rest) next walker := by
        rw [← position] at room base
        refine ⟨sound, base, room, chunk.bounded.later ?_⟩
        exact Nat.le_of_eq position.symm
      exact moved.handle ordered stop
    · obtain ⟨position, sound⟩ := moves
      refine ⟨sound, ?_, ?_, chunk.bounded.later ?_⟩ <;> omega
  number := by
    intro lexer walker pending value chunk under
    have started : pending.start < lexer.position := by
      apply chunk.sound
      simp only [Lexer.pendingStart?, under, Option.map_some]
    have idle : InChunk window [] { lexer with pending := none } walker := by
      refine ⟨?_, chunk.base, chunk.room, chunk.bounded⟩
      intro start impossible
      cases impossible
    apply idle.handle
    · exact Nat.le_of_lt started
    · rfl
  ending := by
    intro lexer walker chunk
    apply chunk.handle
    · exact Nat.le_refl _
    · rfl

structure Bounded (engine : Engine) : Prop where
  sound : engine.lexer.Sound
  walker : engine.walker.Bounded engine.lexer.position

variable {engine : Engine}

theorem Bounded.feed (bounded : engine.Bounded) (chunk : Bytes) :
    engine.feed? chunk = some (engine.feed chunk) ∧ (engine.feed chunk).1.Bounded := by
  have size : (engine.window chunk).bytes.size = chunk.length := List.size_toByteArray
  have start : InChunk (engine.window chunk) chunk engine.lexer engine.walker := by
    refine ⟨bounded.sound, Nat.le_refl _, ?_, bounded.walker⟩
    rw [size]
    exact Nat.le_refl _
  have raises : ∀ lexical,
      Halt.document (.lex lexical) = Halt.document (DocumentError.lex lexical) := fun _ => rfl
  obtain ⟨pushed, rest, inChunk⟩ := (handle?_tracks engine.plan (engine.window chunk)).push raises
    engine.lexer engine.walker chunk start
  unfold feed? Engine.feed
  simp only [id_eq] at pushed
  simp only [pushed]
  unfold window at inChunk ⊢
  generalize Lexer.push (Engine.handle engine.plan ⟨chunk.toByteArray, engine.lexer.position⟩)
    DocumentError.lex engine.lexer engine.walker chunk = result at inChunk ⊢
  rcases result with ⟨lexer, walker, _ | error⟩
  · have within := inChunk.room
    simp only at within
    have last : lexer.position ≤ engine.lexer.position + chunk.toByteArray.size := by omega
    have pending : ∀ start, lexer.pendingStart? = some start →
        start ≤ engine.lexer.position + chunk.toByteArray.size := by
      intro start under
      have before := inChunk.sound start under
      simp only at before
      omega
    have ended : walker.endChunk? engine.plan.mode ⟨chunk.toByteArray, engine.lexer.position⟩
        lexer.pendingStart? = some _ :=
      Walker.endChunk?_eq (inChunk.bounded.later last) engine.plan.mode pending
    refine ⟨?_, inChunk.sound, Walker.endChunk_bounded inChunk.bounded _ _ _⟩
    simp only [Option.map_none, ended, Option.bind_eq_bind, Option.bind_some]
  · exact ⟨rfl, inChunk.sound, inChunk.bounded⟩

theorem Bounded.finish (bounded : engine.Bounded) :
    engine.finish? = some engine.finish ∧ engine.finish.1.Bounded := by
  have start : InChunk ⟨ByteArray.empty, engine.lexer.position⟩ [] engine.lexer engine.walker :=
    ⟨bounded.sound, Nat.le_refl _, Nat.le_refl _, bounded.walker⟩
  have raises : ∀ lexical,
      Halt.document (.lex lexical) = Halt.document (DocumentError.lex lexical) := fun _ => rfl
  obtain ⟨ended, inChunk⟩ := (handle?_tracks engine.plan _).finish raises engine.lexer
    engine.walker start
  unfold finish? Engine.finish
  simp only [id_eq] at ended
  simp only [ended]
  generalize Lexer.finish (Engine.handle engine.plan ⟨ByteArray.empty, engine.lexer.position⟩)
    DocumentError.lex engine.lexer engine.walker = result at inChunk ⊢
  rcases result with ⟨lexer, walker, _ | error⟩
  · exact ⟨rfl, inChunk.sound, inChunk.bounded⟩
  · exact ⟨rfl, inChunk.sound, inChunk.bounded⟩

theorem reset_bounded (engine : Engine) : engine.reset.Bounded :=
  ⟨Lexer.sound_reset _, Walker.new_bounded false _⟩

theorem single_bounded (engine : Engine) : engine.single.Bounded :=
  ⟨Lexer.sound_reset _, Walker.new_bounded true _⟩

theorem Bounded.take (bounded : engine.Bounded) : engine.take.2.Bounded :=
  ⟨bounded.sound, bounded.walker.frames, bounded.walker.skip, bounded.walker.raw⟩

theorem run?_eq (engine : Engine) (source : Bytes) :
    engine.run? source = some (engine.run source) ∧ (engine.run source).1.Bounded := by
  obtain ⟨fed, middle⟩ := engine.single_bounded.feed source
  unfold run? run
  rw [fed]
  rcases feeding : engine.single.feed source with ⟨engine, _ | error⟩
  · rw [feeding] at middle
    obtain ⟨ended, last⟩ := middle.finish
    simp only [Option.bind_eq_bind, Option.bind_some, ended]
    rcases finishing : engine.finish with ⟨engine, _ | error⟩
    · rw [finishing] at last
      exact ⟨rfl, last.take⟩
    · rw [finishing] at last
      exact ⟨rfl, last⟩
  · rw [feeding] at middle
    exact ⟨rfl, middle⟩

theorem Bounded.perform (bounded : engine.Bounded) (operation : Operation) :
    engine.perform? operation = some (engine.perform operation) ∧
      (engine.perform operation).1.Bounded := by
  cases operation with
  | feed chunk =>
      obtain ⟨same, next⟩ := bounded.feed chunk
      exact ⟨by rw [perform?, same]; rfl, next⟩
  | finish =>
      obtain ⟨same, next⟩ := bounded.finish
      exact ⟨by rw [perform?, same]; rfl, next⟩
  | take => exact ⟨rfl, bounded.take⟩
  | reset => exact ⟨rfl, engine.reset_bounded⟩
  | run source =>
      obtain ⟨same, next⟩ := engine.run?_eq source
      exact ⟨by rw [perform?, same]; rfl, next⟩
  | execute source =>
      obtain ⟨same, next⟩ := engine.run?_eq source
      exact ⟨by rw [perform?, same]; rfl, next⟩

theorem Bounded.observed (bounded : engine.Bounded) (operations : List Operation) :
    engine.observed? operations = some (engine.observe operations) := by
  induction operations generalizing engine with
  | nil => rfl
  | cons operation rest ih =>
      obtain ⟨same, next⟩ := bounded.perform operation
      unfold observed? observe
      rw [same]
      simp only [Option.bind_eq_bind, Option.bind_some, ih next]

/-- An engine stays in bounds through any operations, errors among them: with every difference,
slice and index checked it shows the same. -/
theorem observed?_new (group : Group) (options : EngineOptions) (operations : List Operation) :
    (new group options).observed? operations = some ((new group options).observe operations) := by
  have bounded : (new group options).Bounded :=
    ⟨Lexer.sound_new _, Walker.new_bounded false _⟩
  exact bounded.observed operations

end Engine
end JsonProjection
