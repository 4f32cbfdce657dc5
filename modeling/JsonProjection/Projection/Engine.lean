import JsonProjection.Projection.Walker
import JsonProjection.Token.Lexer

/-!
Projecting documents: a lexer and a walker in step.

An engine reads a source chunk by chunk and collects matches until they are taken, or runs one whole
document. An error leaves it as it was when the error struck; `reset` puts it back to the start, and
keeps its selection and its string cache.
-/

namespace JsonProjection

structure EngineOptions where
  mode : EmitMode
  cacheCapacity : Nat
  cacheLengthBound : Nat
  deriving DecidableEq, Repr

def EngineOptions.ofMode (mode : EmitMode) : EngineOptions :=
  ⟨mode, StringCache.defaultCapacity, StringCache.defaultLengthBound⟩

structure Engine where
  plan : Plan
  lexer : Lexer
  walker : Walker
  processed : Nat
  deriving Repr

namespace Engine

def new (group : Group) (options : EngineOptions) : Engine :=
  let cache := StringCache.new options.cacheCapacity options.cacheLengthBound
  ⟨⟨group, options.mode⟩, Lexer.new cache, Walker.new, 0⟩

def reset (engine : Engine) : Engine :=
  ⟨engine.plan, engine.lexer.reset, Walker.new, 0⟩

/-- How many containers are open on the stack. -/
def depth (engine : Engine) : Nat :=
  engine.walker.stack.length

def counts (engine : Engine) : Counts :=
  ⟨engine.walker.matched, engine.processed, engine.walker.skipped⟩

def handle (plan : Plan) (window : Walk.Window) (walker : Walker) (token : Token) :
    Walker × Option DocumentError :=
  let (walker, error?) := walker.push plan window token
  (walker, error?.map .structural)

/-- Reads the next chunk. Root values may follow each other. -/
def feed (engine : Engine) (chunk : Bytes) : Engine × Option DocumentError :=
  let window : Walk.Window := ⟨chunk.toByteArray, engine.lexer.position⟩
  let (lexer, walker, error?) :=
    engine.lexer.push (handle engine.plan window) .lex engine.walker chunk
  let walker :=
    match error? with
    | some _ => walker
    | none => walker.endChunk engine.plan.mode window lexer.pendingStart?
  (⟨engine.plan, lexer, walker, engine.processed + chunk.length⟩, error?)

def finish (engine : Engine) : Engine × Option DocumentError :=
  let window : Walk.Window := ⟨ByteArray.empty, engine.lexer.position⟩
  let (lexer, walker, error?) :=
    engine.lexer.finish (handle engine.plan window) .lex engine.walker
  ({ engine with lexer, walker }, error?)

def take (engine : Engine) : List Match × Engine :=
  (engine.walker.latest.reverse, { engine with walker := { engine.walker with latest := [] } })

def single (engine : Engine) : Engine :=
  let engine := engine.reset
  { engine with walker := { engine.walker with single := true } }

def run (engine : Engine) (source : Bytes) : Engine × Except DocumentError Document :=
  match engine.single.feed source with
  | (engine, some error) => (engine, .error error)
  | (engine, none) =>
    match engine.finish with
    | (engine, some error) => (engine, .error error)
    | (engine, none) =>
      let (found, engine) := engine.take
      (engine, .ok ⟨engine.plan.mode, engine.walker.shape, found, engine.counts⟩)

def execute (engine : Engine) (source : Bytes) :
    Engine × Except DocumentError (Option Json.Value) :=
  let (engine, outcome) := engine.run source
  (engine, outcome.map Document.value?)

end Engine
end JsonProjection
