import JsonProjection.Pool.Request

/-!
A bounded pool of workers as a state machine.

A request goes to an idle worker's box; when no worker is idle it waits in a queue of bounded
length. A worker that has answered a request claims the oldest waiting one, or reports itself
idle, before it replies, so that whoever sees a reply may submit one request more.

`Pool.step?` lists the steps of the pool and its workers, which may come in any order; it is
`none` where a step cannot happen.
-/

namespace JsonProjection

structure PoolConfig where
  size : Nat
  queueCapacity : Nat
  deriving DecidableEq, Repr

/-- A request in the pool, under the ticket by which its answer is called for. -/
structure Task where
  ticket : Nat
  request : WorkRequest
  deriving DecidableEq, Repr

/-- What a worker is at: waiting for its box, holding a request, holding the answer to one with the
request that it claimed for afterwards, or gone. -/
inductive Phase where
  | waiting
  | running (task : Task)
  | replying (ticket : Nat) (response : WorkResponse) (next? : Option Task)
  | exited
  deriving Repr

structure Worker where
  box : List Task
  phase : Phase
  desk : Desk
  deriving Repr

/-- A pool: its idle workers, the one to be used next in front; the waiting requests, oldest
first; its workers; whether it was stopped; the next ticket; and the answers so far, latest first.
-/
structure Pool where
  config : PoolConfig
  idle : List Nat
  queue : List Task
  workers : List Worker
  terminated : Bool
  nextTicket : Nat
  answers : List (Nat × Except PoolError WorkResponse)

namespace Pool

/-- A pool at rest. It has at least one worker. -/
def new (config : PoolConfig) : Pool :=
  let size := max 1 config.size
  ⟨{ config with size }, List.range size, [], List.replicate size ⟨[], .waiting, Desk.empty⟩,
    false, 0, []⟩

def capacity (pool : Pool) : Nat :=
  pool.config.size + pool.config.queueCapacity

def queueSize (pool : Pool) : Nat :=
  pool.queue.length

def activeWorkers (pool : Pool) : Nat :=
  pool.config.size - pool.idle.length

def answer? (pool : Pool) (ticket : Nat) : Option (Except PoolError WorkResponse) :=
  pool.answers.lookup ticket

def record (pool : Pool) (ticket : Nat) (answer : Except PoolError WorkResponse) : Pool :=
  { pool with answers := (ticket, answer) :: pool.answers }

def setWorker (pool : Pool) (index : Nat) (worker : Worker) : Pool :=
  { pool with workers := pool.workers.set index worker }

/-- Takes a request, under the next ticket: into the box of an idle worker, into the queue, or not
at all. -/
def submit (pool : Pool) (request : WorkRequest) : Pool :=
  let task : Task := ⟨pool.nextTicket, request⟩
  let pool := { pool with nextTicket := pool.nextTicket + 1 }
  if pool.terminated then pool.record task.ticket (.error .terminated)
  else
    match pool.idle with
    | index :: rest =>
      match pool.workers[index]? with
      | none => pool
      | some worker =>
        let pool := { pool with idle := rest }
        match worker.phase with
        | .exited => pool.record task.ticket (.error .workerLost)
        | _ => pool.setWorker index { worker with box := worker.box ++ [task] }
    | [] =>
      if pool.queue.length < pool.config.queueCapacity then
        { pool with queue := pool.queue ++ [task] }
      else pool.record task.ticket (.error (.queueFull pool.config.queueCapacity))

/-- Stops the pool: the waiting requests are refused, in order, and workers take no further ones. -/
def stop (pool : Pool) : Pool :=
  if pool.terminated then pool
  else
    pool.queue.foldl (fun pool task => pool.record task.ticket (.error .terminated))
      { pool with terminated := true, queue := [] }

def receive? (pool : Pool) (index : Nat) : Option Pool :=
  match pool.workers[index]? with
  | some ⟨task :: rest, .waiting, desk⟩ => some (pool.setWorker index ⟨rest, .running task, desk⟩)
  | _ => none

/-- A worker answers the request it holds, and claims the oldest waiting one or reports itself
idle. -/
def claim? (pool : Pool) (index : Nat) : Option Pool :=
  match pool.workers[index]? with
  | some ⟨box, .running task, desk⟩ =>
    let (desk, response) := desk.answer task.request
    match pool.terminated, pool.queue with
    | false, next :: rest =>
      some ({ pool with queue := rest }.setWorker index
        ⟨box, .replying task.ticket response (some next), desk⟩)
    | _, _ =>
      some ({ pool with idle := index :: pool.idle }.setWorker index
        ⟨box, .replying task.ticket response none, desk⟩)
  | _ => none

/-- A worker replies, and goes on with the request it claimed or waits for its box. -/
def reply? (pool : Pool) (index : Nat) : Option Pool :=
  match pool.workers[index]? with
  | some ⟨box, .replying ticket response next?, desk⟩ =>
    let phase := match next? with
      | some task => .running task
      | none => .waiting
    some ((pool.setWorker index ⟨box, phase, desk⟩).record ticket (.ok response))
  | _ => none

/-- A worker of a stopped pool leaves when its box is empty. -/
def exit? (pool : Pool) (index : Nat) : Option Pool :=
  match pool.terminated, pool.workers[index]? with
  | true, some ⟨[], .waiting, desk⟩ => some (pool.setWorker index ⟨[], .exited, desk⟩)
  | _, _ => none

inductive Action where
  | submit (request : WorkRequest)
  | stop
  | receive (index : Nat)
  | claim (index : Nat)
  | reply (index : Nat)
  | exit (index : Nat)
  deriving DecidableEq, Repr

def step? (pool : Pool) : Action → Option Pool
  | .submit request => some (pool.submit request)
  | .stop => some pool.stop
  | .receive index => pool.receive? index
  | .claim index => pool.claim? index
  | .reply index => pool.reply? index
  | .exit index => pool.exit? index

end Pool
end JsonProjection
