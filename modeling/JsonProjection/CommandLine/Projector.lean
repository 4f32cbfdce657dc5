import JsonProjection.CommandLine.Options
import JsonProjection.Json.Printer
import JsonProjection.Pool.Parallel
import JsonProjection.Records
import JsonProjection.Settings.Basic
import JsonProjection.Settings.EnvFile
import JsonProjection.Stats

/-!
The projector as a command: its arguments, and what it writes for an input.

One document is printed over several lines or, in compact form, on one; with records, every line
of the input is a document of its own, printed on one line. In raw mode every leaf is printed
behind its name.
-/

namespace JsonProjection.Projector

open CommandLine

/-- The options of the command. One group of operands is the query, possibly behind a file. -/
def grammar : Grammar :=
  let count := OptionKind.value fun text => (Count.ofChars? text.toList).isSome
  ⟨[⟨"ndjson", none, .switch⟩, ⟨"raw", none, .switch⟩, ⟨"stats", none, .switch⟩,
      ⟨"workers", some 'w', count⟩, ⟨"chunk-size", none, count⟩, ⟨"compact", none, .switch⟩,
      verboseRule, helpRule, versionRule], 2⟩

structure Call where
  file? : Option String
  query : String
  records : Bool
  mode : EmitMode
  stats : Bool
  compact : Bool
  verbose : Bool
  workers? : Option Nat
  chunkSize? : Option Nat
  deriving DecidableEq, Repr

/-- The file and the query among the operands. More than two, with options between them, name
neither. -/
def fileAndQuery : List String → Option String × String
  | [query] => (none, query)
  | [file, query] => (some file, query)
  | _ => (none, "")

def Call.ofArguments (arguments : List String) : Except Halt Call :=
  match grammar.read arguments with
  | .error halt => .error halt
  | .ok read =>
    if read.groups.isEmpty then .error .usage
    else
      let (file?, query) := fileAndQuery read.groups.flatten
      let count? (name : String) : Option Nat :=
        (read.value? name).bind fun text => Count.ofChars? text.toList
      .ok
        { file?
          query
          records := read.has "ndjson"
          mode := if read.has "raw" then .raw else .materialize
          stats := read.has "stats"
          compact := read.has "compact"
          verbose := read.has "verbose"
          workers? := count? "workers"
          chunkSize? := count? "chunk-size" }

def Call.settings (call : Call) (environment : Settings) : Settings :=
  { environment with
    workers := (call.workers?.map (max 1)).getD environment.workers
    chunkSize := (call.chunkSize?.map (max 1)).getD environment.chunkSize }

inductive Input where
  | content (bytes : Bytes)
  | unopened (reason : String)
  | unreadable (reason : String)
  deriving DecidableEq, Repr

inductive Figures where
  | document (counts : Counts)
  | failedRecords (count : Nat)
  deriving DecidableEq, Repr

/-- What a call writes: its output, the error that ends it, the figures if they are asked for, and
the records that failed, by line and reason. -/
structure Report where
  output : Bytes
  error? : Option String
  figures? : Option Figures
  badLines : List (Nat × String)
  deriving DecidableEq, Repr

def Report.code (report : Report) : Nat :=
  if report.error?.isSome then 1 else 0

def Report.ofError (error : String) : Report :=
  ⟨[], some error, none, []⟩

/-- An error that was caused by another one is told with its cause behind it, whose text is in its
own already. -/
def chain (error : QueryError) : String :=
  match error with
  | .document (.lex cause) => error.message ++ ": " ++ cause.message
  | .document (.structural cause) => error.message ++ ": " ++ cause.message
  | .query cause => error.message ++ ": " ++ cause.message
  | .sink reason => error.message ++ ": " ++ reason
  | .source reason => error.message ++ ": " ++ reason
  | .pool _ => error.message

def rawLines (raws : List RawMatch) : Bytes :=
  raws.flatMap fun leaf => Text.Utf8.encode leaf.key ++ [0x3A, 0x20] ++ leaf.bytes ++ [0x0A]

def valueLines (compact : Bool) (value : Json.Value) : Bytes :=
  Text.Utf8.encode (if compact then value.compact else value.pretty) ++ [0x0A]

def openingError (call : Call) (reason : String) : String :=
  "opening " ++ call.file?.getD "" ++ ": " ++ reason

/-! ### One document -/

def reportDocument (call : Call) (settings : Settings) (input : Input) : Report :=
  match compile call.query with
  | .error error => .ofError error.message
  | .ok group =>
    match input with
    | .unopened reason => .ofError (openingError call reason)
    | .unreadable reason => .ofError ("reading input: " ++ reason)
    | .content bytes =>
      match ((Engine.new group (settings.engineOptions call.mode)).run bytes).2 with
      | .error error => .ofError (chain (.document error))
      | .ok document =>
        let output :=
          match call.mode with
          | .raw => rawLines document.raws
          | .materialize =>
            match document.value? with
            | some value => valueLines call.compact value
            | none => []
        ⟨output, none, if call.stats then some (.document document.counts) else none, []⟩

/-! ### Records -/

/-- What is written for the records so far, latest first, and which ones failed, latest first. -/
structure Progress where
  latest : List Bytes
  failed : List (Nat × String)

def Progress.good (progress : Progress) (raws : List RawMatch) (value? : Option Json.Value) :
    Progress :=
  let lines :=
    match value? with
    | some value => valueLines true value
    | none => []
  { progress with latest := (rawLines raws ++ lines) :: progress.latest }

def Progress.bad (progress : Progress) (line : Nat) (reason : String) : Progress :=
  { progress with failed := (line, reason) :: progress.failed }

def Progress.report (progress : Progress) (stats : Bool) (error? : Option QueryError) : Report :=
  let output := progress.latest.reverse.flatten
  let badLines := progress.failed.reverse
  let count := badLines.length
  match error? with
  | some error => ⟨output, some (chain error), none, badLines⟩
  | none =>
    let failure := if 0 < count then some (toString count ++ " record(s) failed") else none
    ⟨output, failure, if stats then some (.failedRecords count) else none, badLines⟩

def reportRecords (call : Call) (records : Records) : Report :=
  let progress := records.records.foldl (fun (progress : Progress) record =>
    match record.outcome with
    | .ok document => progress.good document.raws document.value?
    | .error error => progress.bad record.line error.message) ⟨[], []⟩
  progress.report call.stats records.error?

/-- Responses of a pool, up to the first that is none. -/
def reportResponses (call : Call) :
    Progress → List (Except QueryError WorkResponse) → Report
  | progress, [] => progress.report call.stats none
  | progress, .error error :: _ => progress.report call.stats (some error)
  | progress, .ok response :: rest =>
    match response.error? with
    | some reason => reportResponses call (progress.bad response.id reason) rest
    | none => reportResponses call (progress.good response.raws response.result?) rest

def reportLines (call : Call) (settings : Settings) (input : Input) : Report :=
  match input with
  | .unopened reason => .ofError (openingError call reason)
  | _ =>
    let source :=
      match input with
      | .content bytes => Arrival.reads settings.chunkSize [.chunk bytes]
      | .unopened reason => [.failure reason]
      | .unreadable reason => [.failure reason]
    if 1 < settings.workers then
      match compile call.query with
      | .error error => .ofError error.message
      | .ok _ =>
        let run := ParallelRun.new (Pool.new settings.poolConfig) call.query call.mode source
        reportResponses call ⟨[], []⟩ run.complete.responses
    else
      match readRecords call.query (settings.engineOptions call.mode) source with
      | .error error => .ofError error.message
      | .ok records => reportRecords call records

def report (call : Call) (settings : Settings) (input : Input) : Report :=
  if call.records then reportLines call settings input else reportDocument call settings input

def Figures.text (figures : Figures) (nanoseconds : Nat) : String :=
  match figures with
  | .document counts =>
    (Stats.mk counts nanoseconds).toJson.pretty
  | .failedRecords count =>
    "elapsed: " ++ fixedPlaces 2 nanoseconds 1000000 ++ "ms, failed records: " ++ toString count

end JsonProjection.Projector
