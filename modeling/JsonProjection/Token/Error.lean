/-!
What can be wrong with the bytes of a document.
-/

namespace JsonProjection

/-- Why bytes do not fall into tokens. Offsets are those of the first byte of the token at fault. -/
inductive LexError where
  /-- A word that begins like `true`, `false` or `null` and goes on differently. -/
  | invalidLiteral (expected found : String) (offset : Nat)
  /-- A run of number bytes that is no number, or none that a finite double comes near. -/
  | invalidNumber (text : String) (offset : Nat)
  /-- Input that ends inside a string. -/
  | unterminatedString (offset : Nat)
  /-- Input that ends inside a word. -/
  | unterminatedLiteral (offset : Nat)
  deriving DecidableEq, Repr

def LexError.message : LexError → String
  | .invalidLiteral expected found offset =>
    "invalid literal at byte " ++ toString offset ++ ": expected `" ++ expected ++ "`, got `" ++
      found ++ "`"
  | .invalidNumber text offset => "invalid number `" ++ text ++ "` at byte " ++ toString offset
  | .unterminatedString offset => "unterminated string starting at byte " ++ toString offset
  | .unterminatedLiteral offset => "unterminated literal starting at byte " ++ toString offset

end JsonProjection
