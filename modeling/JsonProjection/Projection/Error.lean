import JsonProjection.Token.Basic
import JsonProjection.Token.Error

/-!
What can be wrong with a document: its bytes, or the order of its tokens.
-/

namespace JsonProjection

inductive ExpectedToken where
  | value
  | key
  | keyOrClose
  | colon
  | separator
  deriving DecidableEq, Repr

def ExpectedToken.describe : ExpectedToken → String
  | .value => "value"
  | .key => "string"
  | .keyOrClose => "string or '\x7d'"
  | .colon => "':'"
  | .separator => "',' or closing bracket"

inductive StructuralError where
  | unexpected (found : Token.Kind) (expected : ExpectedToken) (offset : Nat)
  /-- A bracket that does not close the innermost open container. -/
  | mismatchedClose (offset : Nat)
  /-- The input ends with so many containers still open. -/
  | truncated (depth offset : Nat)
  /-- A second value where one document was to be read. -/
  | trailingData (offset : Nat)
  /-- No value where one document was to be read. -/
  | empty
  deriving DecidableEq, Repr

def StructuralError.message : StructuralError → String
  | .unexpected found expected offset =>
    "unexpected " ++ found.describe ++ " at byte " ++ toString offset ++ ", expected " ++
      expected.describe
  | .mismatchedClose offset =>
    "closing bracket at byte " ++ toString offset ++ " does not match the open container"
  | .truncated depth offset =>
    "document truncated at byte " ++ toString offset ++ " with " ++ toString depth ++
      " container(s) still open"
  | .trailingData offset => "trailing data after the document at byte " ++ toString offset
  | .empty => "empty document"

inductive DocumentError where
  | lex (error : LexError)
  | structural (error : StructuralError)
  deriving DecidableEq, Repr

def DocumentError.message : DocumentError → String
  | .lex error => "lexical error: " ++ error.message
  | .structural error => "structural error: " ++ error.message

end JsonProjection
