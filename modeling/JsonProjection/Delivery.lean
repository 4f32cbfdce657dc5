import JsonProjection.Arrival
import JsonProjection.Error
import JsonProjection.Projection.Engine
import JsonProjection.Selection.Query

/-!
Handing matches to a receiver.

A receiver has a callback for every match. The callbacks of one batch of matches are started in
document order and settle in any order; the batch is over when all of them have settled, and it
fails with the failure that settled first. The figures and the word that all is done follow only
where no callback failed.

`Delivery.start?` and `Delivery.settle?` are the steps of a batch, for every order of settling;
`Delivery.promptly` takes them one callback after the other.
-/

namespace JsonProjection

/-- How a receiver answers: the callback of the match that is handed over as the `n`-th, the
figures, and the end. An answer that is not `none` is the reason of a failure. -/
structure Sink where
  onMatch : Nat → Match → Option String
  onCounts : Counts → Option String
  onDrain : Option String

namespace Sink

def silent : Sink :=
  ⟨fun _ _ => none, fun _ => none, none⟩

def ofValues (accept : Nat → Json.Value → Option String) : Sink :=
  ⟨fun index found =>
    match found with
    | .value value => accept index value
    | .raw _ => none, fun _ => none, none⟩

end Sink

namespace Delivery

inductive Event where
  | started (index : Nat) (found : Match)
  | settled (index : Nat) (failure? : Option String)
  | counts (counts : Counts)
  | drained
  deriving Repr

end Delivery

/-- A delivery under way: the matches of the batch whose callbacks have not started, the callbacks
that have not settled, the index of the next callback, the failure of the batch, and the events so
far, latest first. -/
structure Delivery where
  waiting : List Match
  running : List (Nat × Match)
  next : Nat
  failure? : Option String
  latest : List Delivery.Event
  deriving Repr

namespace Delivery

def new : Delivery :=
  ⟨[], [], 0, none, []⟩

def events (delivery : Delivery) : List Event :=
  delivery.latest.reverse

def isOver (delivery : Delivery) : Bool :=
  delivery.waiting.isEmpty && delivery.running.isEmpty

def begin (delivery : Delivery) (batch : List Match) : Delivery :=
  { delivery with waiting := batch }

def start? (delivery : Delivery) : Option Delivery :=
  match delivery.waiting with
  | [] => none
  | found :: rest =>
    some
      { delivery with
        waiting := rest
        running := delivery.running ++ [(delivery.next, found)]
        next := delivery.next + 1
        latest := .started delivery.next found :: delivery.latest }

def settle? (sink : Sink) (delivery : Delivery) (index : Nat) : Option Delivery :=
  match delivery.running.lookup index with
  | none => none
  | some found =>
    let failure? := sink.onMatch index found
    some
      { delivery with
        running := delivery.running.filter (·.1 != index)
        failure? := delivery.failure? <|> failure?
        latest := .settled index failure? :: delivery.latest }

/-- Lets every callback settle before the next one starts. -/
def promptly (sink : Sink) (delivery : Delivery) : List Match → Delivery
  | [] => delivery
  | _ :: rest =>
    match delivery.start? with
    | none => delivery
    | some started =>
      match started.settle? sink delivery.next with
      | none => started
      | some settled => promptly sink settled rest

def hand (sink : Sink) (delivery : Delivery) (batch : List Match) : Delivery :=
  (delivery.begin batch).promptly sink batch

def conclude (sink : Sink) (delivery : Delivery) (counts : Counts) : Delivery × Option String :=
  let delivery := { delivery with latest := .counts counts :: delivery.latest }
  match sink.onCounts counts with
  | some reason => (delivery, some reason)
  | none => ({ delivery with latest := .drained :: delivery.latest }, sink.onDrain)

end Delivery

/-! ### One document -/

/-- The answer to a query over one document. Where a receiver has the matches, the result and the
raw leaves stay empty. -/
structure QueryOutcome where
  result? : Option Json.Value
  raws : List RawMatch
  counts : Counts
  deriving Repr

def runQuery (query : String) (mode : EmitMode) (source : Bytes) : Except QueryError Document :=
  match compile query with
  | .error error => .error (.query error)
  | .ok group =>
    match ((Engine.new group (EngineOptions.ofMode mode)).run source).2 with
    | .error error => .error (.document error)
    | .ok document => .ok document

def answerQuery (query : String) (mode : EmitMode) (source : Bytes) :
    Except QueryError QueryOutcome :=
  (runQuery query mode source).map fun document =>
    ⟨document.value?, document.raws, document.counts⟩

def deliverQuery (sink : Sink) (query : String) (mode : EmitMode) (source : Bytes) :
    Delivery × Except QueryError QueryOutcome :=
  match runQuery query mode source with
  | .error error => (Delivery.new, .error error)
  | .ok document =>
    let delivery := Delivery.new.hand sink document.found
    match delivery.failure? with
    | some reason => (delivery, .error (.sink reason))
    | none =>
      match delivery.conclude sink document.counts with
      | (delivery, some reason) => (delivery, .error (.sink reason))
      | (delivery, none) => (delivery, .ok ⟨none, [], document.counts⟩)

/-! ### A source in the background -/

/-- A task that hands the matches of a source to a receiver, chunk by chunk. It is over as soon as
it has an outcome. -/
structure BackgroundTask where
  engine : Engine
  delivery : Delivery
  outcome? : Option (Except QueryError Counts)

namespace BackgroundTask

def new (group : Group) (options : EngineOptions) : BackgroundTask :=
  ⟨Engine.new group options, Delivery.new, none⟩

def handOver (sink : Sink) (task : BackgroundTask) : BackgroundTask :=
  let (batch, engine) := task.engine.take
  let delivery := task.delivery.hand sink batch
  ⟨engine, delivery, delivery.failure?.map fun reason => .error (.sink reason)⟩

/-- Takes what the next read gives. The matches of a chunk with an error in it are not handed
over. -/
def arrive (sink : Sink) (task : BackgroundTask) (arrival : Arrival) : BackgroundTask :=
  match task.outcome? with
  | some _ => task
  | none =>
    match arrival with
    | .failure reason => { task with outcome? := some (.error (.source reason)) }
    | .chunk bytes =>
      match task.engine.feed bytes with
      | (engine, some error) => { task with engine, outcome? := some (.error (.document error)) }
      | (engine, none) => { task with engine }.handOver sink

def finish (sink : Sink) (task : BackgroundTask) : BackgroundTask :=
  match task.outcome? with
  | some _ => task
  | none =>
    match task.engine.finish with
    | (engine, some error) => { task with engine, outcome? := some (.error (.document error)) }
    | (engine, none) =>
      let task := { task with engine }.handOver sink
      match task.outcome? with
      | some _ => task
      | none =>
        let counts := task.engine.counts
        match task.delivery.conclude sink counts with
        | (delivery, some reason) =>
          { task with delivery, outcome? := some (.error (.sink reason)) }
        | (delivery, none) => { task with delivery, outcome? := some (.ok counts) }

def cancel (task : BackgroundTask) : BackgroundTask :=
  match task.outcome? with
  | some _ => task
  | none => { task with outcome? := some (.error (.source "subscription cancelled")) }

def arriveAll (sink : Sink) (task : BackgroundTask) (source : List Arrival) : BackgroundTask :=
  source.foldl (arrive sink) task

end BackgroundTask
end JsonProjection
