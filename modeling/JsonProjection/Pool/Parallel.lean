import JsonProjection.Arrival
import JsonProjection.Lines
import JsonProjection.Pool.Schedule

/-!
Projecting the lines of a source on a pool, with the responses in the order of the lines.

Every line becomes a request with the number of the line as its `id`. As many requests are in flight
at once as the pool may hold; before one more is submitted the oldest response is awaited and passed
on. A source that breaks off ends the responses at once, and those in flight are not passed on.
-/

namespace JsonProjection

/-- A run over the lines of a source: the pool, the query, what is left of the source, the lines
that wait to be submitted, the tickets in flight, oldest first, and the responses passed on,
latest first. -/
structure ParallelRun where
  pool : Pool
  query : String
  mode : EmitMode
  source : List Arrival
  framer : LineFramer
  lines : List Line
  exhausted : Bool
  inFlight : List Nat
  latest : List (Except QueryError WorkResponse)
  brokenOff : Bool

namespace ParallelRun

def new (pool : Pool) (query : String) (mode : EmitMode) (source : List Arrival) : ParallelRun :=
  ⟨pool, query, mode, source, LineFramer.new, [], false, [], [], false⟩

def window (run : ParallelRun) : Nat :=
  max 1 run.pool.capacity

def passOn? (run : ParallelRun) : Option ParallelRun :=
  match run.inFlight with
  | [] => none
  | ticket :: rest =>
    (run.pool.answer? ticket).map fun answer =>
      { run with
        inFlight := rest
        latest := answer.mapError .pool :: run.latest }

def submitLine (run : ParallelRun) (line : Line) (rest : List Line) : ParallelRun :=
  { run with
    pool := run.pool.submit ⟨line.number, line.bytes, run.query, run.mode⟩
    lines := rest
    inFlight := run.inFlight ++ [run.pool.nextTicket] }

def read (run : ParallelRun) : ParallelRun :=
  match run.source with
  | [] =>
    let (framer, last?) := run.framer.finish
    { run with framer, lines := last?.toList, exhausted := true }
  | .failure reason :: _ =>
    { run with brokenOff := true, latest := .error (.source reason) :: run.latest }
  | .chunk bytes :: rest =>
    let (framer, lines) := run.framer.push bytes
    { run with framer, lines, source := rest }

/-- The next step of the reader; `none` while it has to wait for the pool, and at the end. -/
def readerStep? (run : ParallelRun) : Option ParallelRun :=
  if run.brokenOff then none
  else
    match run.lines with
    | line :: rest =>
      if run.inFlight.length < run.window then some (run.submitLine line rest) else run.passOn?
    | [] => if run.exhausted then run.passOn? else some run.read

def step? (run : ParallelRun) : Option ParallelRun :=
  match run.readerStep? with
  | some run => some run
  | none => run.pool.firstStep?.map fun pool => { run with pool }

def advance : Nat → ParallelRun → ParallelRun
  | 0, run => run
  | steps + 1, run =>
    match run.step? with
    | none => run
    | some run => advance steps run

def arrivalSize : Arrival → Nat
  | .chunk bytes => bytes.length
  | .failure _ => 0

/-- A bound on the steps of a run: one for every read, and for every line one to submit it, one to
pass its response on, and three of a worker; a source has at most one line more than bytes. -/
def stepBound (source : List Arrival) : Nat :=
  let bytes := source.foldl (fun count arrival => count + arrivalSize arrival) 0
  source.length + 5 * (bytes + 1) + 2

def complete (run : ParallelRun) : ParallelRun :=
  advance (stepBound run.source) run

def responses (run : ParallelRun) : List (Except QueryError WorkResponse) :=
  run.latest.reverse

end ParallelRun
end JsonProjection
