import JsonProjection.Pool.State

/-!
One order in which the workers of a pool may take their steps: the first worker that can take a step
does.
-/

namespace JsonProjection.Pool

def workerStep? (pool : Pool) (index : Nat) : Option Pool :=
  match pool.receive? index with
  | some pool => some pool
  | none =>
    match pool.claim? index with
    | some pool => some pool
    | none =>
      match pool.reply? index with
      | some pool => some pool
      | none => pool.exit? index

def firstStep? (pool : Pool) : Option Pool :=
  (List.range pool.config.size).findSome? pool.workerStep?

def workFor : Nat → Pool → Pool
  | 0, pool => pool
  | steps + 1, pool =>
    match pool.firstStep? with
    | none => pool
    | some pool => workFor steps pool

/-- A bound on the steps that are left to the workers: three for every request that is in no
worker's hands, and at most four more for every worker. -/
def stepsLeft (pool : Pool) : Nat :=
  let boxed := pool.workers.foldl (fun count worker => count + worker.box.length) 0
  3 * (pool.queue.length + boxed) + 4 * pool.workers.length

def settle (pool : Pool) : Pool :=
  workFor pool.stepsLeft pool

def serve (pool : Pool) (index : Nat) : Pool :=
  let pool := (pool.receive? index).getD pool
  match pool.claim? index with
  | none => pool
  | some pool => (pool.reply? index).getD pool

end JsonProjection.Pool
