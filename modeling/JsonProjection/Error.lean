import JsonProjection.Projection.Error
import JsonProjection.Selection.Error

/-!
Everything that a query over a source can fail with.
-/

namespace JsonProjection

inductive PoolError where
  /-- The pool was stopped. -/
  | terminated
  /-- No worker is idle, and as many requests wait as may wait. -/
  | queueFull (capacity : Nat)
  /-- The worker that was to answer has left. -/
  | workerLost
  deriving DecidableEq, Repr

def PoolError.message : PoolError → String
  | .terminated => "worker pool terminated"
  | .queueFull capacity => "worker pool queue is full (" ++ toString capacity ++ " pending)"
  | .workerLost => "worker exited before responding"

inductive QueryError where
  | document (error : DocumentError)
  | query (error : SyntaxError)
  /-- A receiver refused what it was handed. -/
  | sink (reason : String)
  /-- The source could not be read on. -/
  | source (reason : String)
  | pool (error : PoolError)
  deriving DecidableEq, Repr

/-- The wording of an error, with the sort of error in front except for pool errors. -/
def QueryError.message : QueryError → String
  | .document error => error.message
  | .query error => "query syntax error: " ++ error.message
  | .sink reason => "sink callback failed: " ++ reason
  | .source reason => "I/O error: " ++ reason
  | .pool error => error.message

end JsonProjection
