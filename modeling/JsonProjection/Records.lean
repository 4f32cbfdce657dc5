import JsonProjection.Arrival
import JsonProjection.Error
import JsonProjection.Lines
import JsonProjection.Projection.Engine
import JsonProjection.Selection.Query

/-!
Records: one document on every line of a source.

A line that is no document does not stop the lines behind it.
-/

namespace JsonProjection

structure Record where
  line : Nat
  outcome : Except DocumentError Document

structure Records where
  records : List Record
  error? : Option QueryError

namespace Records

def runLines (engine : Engine) (latest : List Record) : List Line → Engine × List Record
  | [] => (engine, latest)
  | line :: rest =>
    let (engine, outcome) := engine.run line.bytes
    runLines engine (⟨line.number, outcome⟩ :: latest) rest

/-- Reads the rest of a source. `latest` holds the records so far, latest first. -/
def readFrom (engine : Engine) (framer : LineFramer) (latest : List Record) :
    List Arrival → Records
  | [] =>
    let (_, latest) := runLines engine latest framer.finish.2.toList
    ⟨latest.reverse, none⟩
  | .failure reason :: _ => ⟨latest.reverse, some (.source reason)⟩
  | .chunk bytes :: rest =>
    let (framer, lines) := framer.push bytes
    let (engine, latest) := runLines engine latest lines
    readFrom engine framer latest rest

end Records

def readRecords (query : String) (options : EngineOptions) (source : List Arrival) :
    Except SyntaxError Records :=
  (compile query).map fun group =>
    Records.readFrom (Engine.new group options) LineFramer.new [] source

end JsonProjection
