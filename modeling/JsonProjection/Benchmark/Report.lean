import JsonProjection.Benchmark.Employees
import JsonProjection.CommandLine.Options
import JsonProjection.CommandLine.Projector
import JsonProjection.Number.Layout
import JsonProjection.Stats

/-!
Measuring queries over one document.

Every case is a query with an engine of its own. The report has a row for each: how much of the
document was skipped, and how many matches there were. The clock is read outside of this library.
-/

namespace JsonProjection.Benchmark

open CommandLine

def grammar : Grammar :=
  let count := OptionKind.value fun text => (Count.ofChars? text.toList).isSome
  ⟨[⟨"records", none, count⟩, ⟨"runs", none, count⟩,
      ⟨"file", none, .value fun text => !text.isEmpty⟩, ⟨"query", none, .value acceptsAny⟩,
      verboseRule, helpRule, versionRule], 0⟩

/-- A call of the command: the size of the synthetic document, how often a case is measured, a
file to be used instead, and a query of the caller's own. -/
structure Call where
  records : Nat
  runs : Nat
  file? : Option String
  query? : Option String
  deriving DecidableEq, Repr

def Call.ofArguments (arguments : List String) : Except Halt Call :=
  (grammar.read arguments).map fun read =>
    let count? (name : String) : Option Nat :=
      (read.value? name).bind fun text => Count.ofChars? text.toList
    ⟨(count? "records").getD 20000, max 1 ((count? "runs").getD 3), read.value? "file",
      read.value? "query"⟩

structure Case where
  label : String
  query : String
  options : EngineOptions
  deriving DecidableEq, Repr

def fullQuery : String :=
  "\x7b id, name, email, active, salary, address \x7b street, city, zip \x7d, tags, " ++
    "projects \x7b name, budget, milestones \x7d \x7d"

def skipHeavyQuery : String :=
  "\x7b id \x7d"

def cases (call : Call) : List Case :=
  let cached := EngineOptions.ofMode .materialize
  let custom := call.query?.toList.map fun query => ⟨"custom " ++ query, query, cached⟩
  [⟨"full selection", fullQuery, cached⟩, ⟨"skip-heavy", skipHeavyQuery, cached⟩,
    ⟨"full selection, no cache", fullQuery, { cached with cacheCapacity := 0 }⟩,
    ⟨"skip-heavy, raw", skipHeavyQuery, EngineOptions.ofMode .raw⟩] ++ custom

def Case.run (case : Case) (document : Bytes) : Except String Counts :=
  match compile case.query with
  | .error error => .error ("compiling " ++ case.query ++ ": " ++ error.message)
  | .ok group =>
    match ((Engine.new group case.options).run document).2 with
    | .error error =>
      .error ("running " ++ case.label ++ ": " ++ Projector.chain (.document error))
    | .ok read => .ok read.counts

/-! ### Rows -/

def padRight (width : Nat) (text : String) : String :=
  text ++ String.ofList (List.replicate (width - text.length) ' ')

def padLeft (width : Nat) (text : String) : String :=
  String.ofList (List.replicate (width - text.length) ' ') ++ text

def header (size : Nat) : List String :=
  ["Projection benchmark", String.ofList (List.replicate 60 '='),
    "Input size: " ++ fixedPlaces 2 size (1024 * 1024) ++ " MB", "",
    padRight 28 "case" ++ " " ++ padLeft 10 "median" ++ " " ++ padLeft 12 "throughput" ++ " " ++
      padLeft 10 "skip" ++ " " ++ padLeft 9 "matches"]

def placesOf (places : Nat) (x : Binary64) : String :=
  fixedPlaces places (Binary64.units x.code) Binary64.unitsOfOne

def skipPercent (counts : Counts) : String :=
  placesOf 1 (counts.skipRatio.mul (Binary64.ofNat 100)) ++ "%"

def row (case : Case) (size nanoseconds : Nat) (counts : Counts) : String :=
  let timed : Stats := ⟨⟨0, size, 0⟩, nanoseconds⟩
  padRight 28 case.label ++ " " ++ padLeft 8 (placesOf 2 timed.duration) ++ "ms " ++
    padLeft 7 (placesOf 1 timed.throughput) ++ " Mbps " ++ padLeft 10 (skipPercent counts) ++ " " ++
    padLeft 9 (toString counts.matched)

/-- The middle one of some times, the later one of two. -/
def median (times : List Nat) : Nat :=
  (times.mergeSort (· ≤ ·))[times.length / 2]?.getD 0

def failureLine (case : Case) (reason : String) : String :=
  padRight 28 case.label ++ " failed: " ++ reason

end JsonProjection.Benchmark
