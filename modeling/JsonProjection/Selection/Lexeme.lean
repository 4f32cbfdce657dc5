import JsonProjection.Text.Alphanumeric
import JsonProjection.Text.Blank

/-!
The words and marks of a query, each with the offset of its first byte.

White space separates lexemes and is dropped. A name reaches as far as its characters do.
-/

namespace JsonProjection

/-- A lexeme of a query. `other` is a character that no query has outside white space. -/
inductive Lexeme where
  | openGroup
  | closeGroup
  | comma
  | name (chars : List Char)
  | other (c : Char)
  deriving DecidableEq, Repr

namespace Lexeme

def isNameChar (c : Char) : Bool :=
  Text.isAlphanumeric c || c == '_' || c == '$' || c == '-'

def head? : Lexeme → Option Char
  | .openGroup => some '{'
  | .closeGroup => some '}'
  | .comma => some ','
  | .name chars => chars.head?
  | .other c => some c

def ofChar (c : Char) : Lexeme :=
  if c = '{' then .openGroup
  else if c = '}' then .closeGroup
  else if c = ',' then .comma
  else .other c

/-- A reader of lexemes: the offset of the next character, the name under way with its own offset,
latest character first, and the lexemes so far, latest first. -/
structure Scanner where
  offset : Nat
  name? : Option (Nat × List Char)
  latest : List (Lexeme × Nat)

def Scanner.flush (scanner : Scanner) : List (Lexeme × Nat) :=
  match scanner.name? with
  | none => scanner.latest
  | some (start, latest) => (.name latest.reverse, start) :: scanner.latest

def Scanner.push (scanner : Scanner) (c : Char) : Scanner :=
  let next := scanner.offset + c.utf8Size
  if isNameChar c then
    match scanner.name? with
    | none => ⟨next, some (scanner.offset, [c]), scanner.latest⟩
    | some (start, latest) => ⟨next, some (start, c :: latest), scanner.latest⟩
  else if Text.isBlank c then ⟨next, none, scanner.flush⟩
  else ⟨next, none, (ofChar c, scanner.offset) :: scanner.flush⟩

def scan (text : List Char) : List (Lexeme × Nat) :=
  (text.foldl Scanner.push ⟨0, none, []⟩).flush.reverse

end Lexeme
end JsonProjection
