import JsonProjection.Json.Value
import JsonProjection.Source

/-!
Tokens of a JSON document, with the bytes that they were read from.
-/

namespace JsonProjection

namespace Token

/-- What a token is. `endOfInput` follows the last byte of a document. -/
inductive Kind where
  | openObject
  | closeObject
  | openArray
  | closeArray
  | colon
  | comma
  | string (text : String)
  | number (value : Numeral)
  | true
  | false
  | null
  | endOfInput
  deriving DecidableEq, Repr

def Kind.describe : Kind → String
  | .openObject => "'\x7b'"
  | .closeObject => "'\x7d'"
  | .openArray => "'['"
  | .closeArray => "']'"
  | .colon => "':'"
  | .comma => "','"
  | .string _ => "string"
  | .number _ => "number"
  | .true => "true"
  | .false => "false"
  | .null => "null"
  | .endOfInput => "end of input"

def Kind.scalar? : Kind → Option Json.Value
  | .string text => some (.string text)
  | .number value => some (.ofNumeral value)
  | .true => some (.bool Bool.true)
  | .false => some (.bool Bool.false)
  | .null => some .null
  | _ => none

end Token

structure Token where
  kind : Token.Kind
  span : Span
  deriving DecidableEq, Repr

end JsonProjection
