import JsonProjection.Json.Printer
import JsonProjection.Json.StrictToken
import JsonProjection.Projection.Match

/-!
The names of the two modes in JSON.
-/

namespace JsonProjection.EmitMode

def name : EmitMode → String
  | .materialize => "materialize"
  | .raw => "raw"

def ofName? (name : String) : Option EmitMode :=
  if name = "materialize" || name = "object" then some .materialize
  else if name = "raw" then some .raw
  else none

def toJson (mode : EmitMode) : String :=
  (Json.Value.string mode.name).compact

/-- The mode that a JSON text names: a string, or an object whose one member has the name for its
key and null for its value. -/
def ofJson? (text : Bytes) : Option EmitMode :=
  match Json.StrictToken.ofBytes? text with
  | some [.scalar (.string name)] => ofName? name
  | some [.openObject, .scalar (.string name), .colon, .scalar .null, .closeObject] => ofName? name
  | _ => none

end JsonProjection.EmitMode
