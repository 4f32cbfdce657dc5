/-!
What can be wrong with a query.
-/

namespace JsonProjection

inductive QueryPart where
  | groupStart
  | fieldName
  | separator
  deriving DecidableEq, Repr

def QueryPart.describe : QueryPart → String
  | .groupStart => "'\x7b'"
  | .fieldName => "field name"
  | .separator => "',' or '\x7d'"

/-- Why a text is not a query. Offsets count bytes. -/
inductive SyntaxError where
  /-- A character, or the end of the text, that cannot stand at this place. -/
  | unexpected (found : Option Char) (expected : QueryPart) (offset : Nat)
  /-- The text ends inside the group that opens at the offset. -/
  | unterminated (offset : Nat)
  /-- A name that its group already has. -/
  | duplicate (name : String) (offset : Nat)
  /-- Something behind the closing brace of the query. -/
  | trailing (offset : Nat)
  deriving DecidableEq, Repr

namespace SyntaxError

def offset : SyntaxError → Nat
  | .unexpected _ _ offset => offset
  | .unterminated offset => offset
  | .duplicate _ offset => offset
  | .trailing offset => offset

def describeFound : Option Char → String
  | some c => String.ofList ['\'', c, '\'']
  | none => "end of input"

def message : SyntaxError → String
  | .unexpected found expected offset =>
    "unexpected " ++ describeFound found ++ " at offset " ++ toString offset ++ ", expected " ++
      expected.describe
  | .unterminated offset => "unterminated group at offset " ++ toString offset
  | .duplicate name offset => "duplicate field `" ++ name ++ "` at offset " ++ toString offset
  | .trailing offset => "unexpected input after the query at offset " ++ toString offset

end SyntaxError
end JsonProjection
