import JsonProjection.Benchmark.Report
import JsonProjection.CommandLine.Projector

/-!
The two commands: a program called `benchmark` measures, and under any other name it projects.

This module reads arguments, variables, files and the clock, and writes to the outside. What is
written is said by the modules that it imports.
-/

namespace JsonProjection

def readFailure (error : IO.Error) : String :=
  match error with
  | .noFileOrDirectory .. => "No such file or directory (os error 2)"
  | .permissionDenied .. => "Permission denied (os error 13)"
  | .inappropriateType .. => "Is a directory (os error 21)"
  | other => toString other

def readFile (path : String) : IO Projector.Input := do
  match ← (IO.FS.Handle.mk ⟨path⟩ .read).toBaseIO with
  | .error error => return .unopened (readFailure error)
  | .ok handle =>
    match ← handle.readBinToEnd.toBaseIO with
    | .error error => return .unreadable (readFailure error)
    | .ok bytes => return .content bytes.data.toList

def readStandardInput : IO Projector.Input := do
  match ← (← IO.getStdin).readBinToEnd.toBaseIO with
  | .error error => return .unreadable (readFailure error)
  | .ok bytes => return .content bytes.data.toList

def directoriesAround (path : String) : List String :=
  let parts := path.splitOn "/"
  (List.range parts.length).map fun count =>
    String.intercalate "/" (parts.take (parts.length - count))

def readEnvFile : IO Bytes := do
  for directory in directoriesAround (← IO.currentDir).toString do
    if let .content bytes ← readFile (directory ++ "/.env") then
      return bytes
  return []

/-- The settings of the environment. Values that are no counts are told of. The workers of a pool
take turns on one thread, so one processor counts. -/
def readSettings : IO Settings := do
  let file ← readEnvFile
  let names := Settings.keys ++ EnvFile.mentioned (Text.Utf8.decodeLossy file).toList
  let environment ← names.filterMapM fun name => do
    return (← IO.getEnv name).map (name, ·)
  let known := EnvFile.load environment file
  let (settings, warnings) := Settings.ofLookup 1 fun name => known.lookup name
  for warning in warnings do
    IO.eprintln
      (" WARN jql::config: " ++ SettingWarning.message ++ " key=" ++ warning.key.quote ++
        " value=" ++ warning.value)
  return settings

def haltWith (usage : String) (halt : CommandLine.Halt) : IO UInt32 := do
  match halt.output usage with
  | some text => IO.println text
  | none => IO.eprintln usage
  return halt.code.toUInt32

def projectorCommand (arguments : List String) : IO UInt32 := do
  match Projector.Call.ofArguments arguments with
  | .error halt => haltWith "Usage: jql [OPTIONS] [FILE] QUERY" halt
  | .ok call =>
    let settings := call.settings (← readSettings)
    let started ← IO.monoNanosNow
    let input ←
      match call.file? with
      | some path => readFile path
      | none => readStandardInput
    let report ← IO.lazyPure fun _ => Projector.report call settings input
    let ended ← IO.monoNanosNow
    (← IO.getStdout).write report.output.toByteArray
    for (line, reason) in report.badLines do
      IO.eprintln
        (" WARN jql::cli: record failed line=" ++ toString line ++ " error=" ++ reason)
    if let some figures := report.figures? then
      IO.eprintln (figures.text (ended - started))
    if let some error := report.error? then
      IO.eprintln ("jql: " ++ error)
    return report.code.toUInt32

/-- Measures a case, once to warm up and then `runs` times. -/
def measure (case : Benchmark.Case) (document : Bytes) (runs : Nat) : IO String := do
  match ← IO.lazyPure fun _ => case.run document with
  | .error reason => return Benchmark.failureLine case reason
  | .ok counts =>
    let times ← (List.range runs).mapM fun _ => do
      let started ← IO.monoNanosNow
      let _ ← IO.lazyPure fun _ => case.run document
      return (← IO.monoNanosNow) - started
    return Benchmark.row case document.length (Benchmark.median times) counts

def benchmarkCommand (arguments : List String) : IO UInt32 := do
  match Benchmark.Call.ofArguments arguments with
  | .error halt =>
    haltWith "Usage: benchmark [--records N] [--runs N] [--file FILE] [--query QUERY]" halt
  | .ok call =>
    let input ←
      match call.file? with
      | some path => readFile path
      | none => pure (.content (Benchmark.employees call.records))
    match input with
    | .unopened reason | .unreadable reason =>
      IO.eprintln ("Error: reading " ++ call.file?.getD "" ++ ": " ++ reason)
      return 1
    | .content document =>
      for line in Benchmark.header document.length do
        IO.println line
      for case in Benchmark.cases call do
        IO.println (← measure case document call.runs)
      return 0

end JsonProjection

/-- The name of the program chooses the command. -/
def main (arguments : List String) : IO UInt32 := do
  let name := (((← IO.appPath).toString.splitOn "/").getLast?).getD ""
  if name == "benchmark" then JsonProjection.benchmarkCommand arguments
  else JsonProjection.projectorCommand arguments
