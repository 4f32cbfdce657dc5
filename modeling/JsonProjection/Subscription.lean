import JsonProjection.Arrival
import JsonProjection.Error
import JsonProjection.Projection.Engine
import JsonProjection.Selection.Query

/-!
Subscriptions: the matches of a source while it arrives.

Root values may follow each other. The matches of a chunk come as soon as it is read, also those in
front of an error in it; the first error comes behind them and ends the subscription.
-/

namespace JsonProjection

structure Items where
  found : List Match
  error? : Option QueryError
  deriving Repr

namespace Subscription

/-- Reads the rest of a source. `latest` holds the matches so far, latest first. -/
def itemsFrom (engine : Engine) (latest : List Match) : List Arrival → Items
  | [] =>
    let (engine, error?) := engine.finish
    ⟨(engine.walker.latest ++ latest).reverse, error?.map .document⟩
  | .failure reason :: _ => ⟨latest.reverse, some (.source reason)⟩
  | .chunk bytes :: rest =>
    match engine.feed bytes with
    | (engine, some error) => ⟨(engine.walker.latest ++ latest).reverse, some (.document error)⟩
    | (engine, none) => itemsFrom engine.take.2 (engine.walker.latest ++ latest) rest

end Subscription

def subscribe (query : String) (options : EngineOptions) (source : List Arrival) :
    Except SyntaxError Items :=
  (compile query).map fun group => Subscription.itemsFrom (Engine.new group options) [] source

end JsonProjection
