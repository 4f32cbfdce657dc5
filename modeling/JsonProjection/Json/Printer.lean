import JsonProjection.Json.Value
import JsonProjection.Number.Layout

/-!
The text of a JSON value, on one line or indented.

Texts are built latest character first, so that a value of any width is written with a stack as deep
as its nesting only.
-/

namespace JsonProjection.Json

/-- How a text is laid out: on one line, or a line for every item, indented by some spaces a
level. -/
inductive Layout where
  | compact
  | indented (width : Nat)
  deriving DecidableEq, Repr

def Layout.lineBreak : Layout → Nat → List Char
  | .compact, _ => []
  | .indented width, depth => '\n' :: List.replicate (width * depth) ' '

def Layout.colon : Layout → List Char
  | .compact => [':']
  | .indented _ => [':', ' ']

def hexDigits (code : Nat) : List Char :=
  [Nat.digitChar (code / 16), Nat.digitChar (code % 16)]

/-- A character inside a string: quotes, backslashes and control characters are escaped, the latter
by their short names where they have one. -/
def escape (c : Char) : List Char :=
  if c = '"' then ['\\', '"']
  else if c = '\\' then ['\\', '\\']
  else if c.toNat = 8 then ['\\', 'b']
  else if c.toNat = 12 then ['\\', 'f']
  else if c = '\n' then ['\\', 'n']
  else if c = '\r' then ['\\', 'r']
  else if c = '\t' then ['\\', 't']
  else if c.toNat < 32 then ['\\', 'u', '0', '0'] ++ hexDigits c.toNat
  else [c]

def quoted (text : String) : List Char :=
  '"' :: text.toList.flatMap escape ++ ['"']

def integerText (value : Int) : List Char :=
  if value < 0 then '-' :: Nat.toDigits 10 value.natAbs else Nat.toDigits 10 value.natAbs

def emit (text latest : List Char) : List Char :=
  text.foldl (fun latest c => c :: latest) latest

mutual

def write (layout : Layout) (depth : Nat) : Value → List Char → List Char
  | .null, latest => emit ['n', 'u', 'l', 'l'] latest
  | .bool true, latest => emit ['t', 'r', 'u', 'e'] latest
  | .bool false, latest => emit ['f', 'a', 'l', 's', 'e'] latest
  | .integer value, latest => emit (integerText value) latest
  | .float value, latest => emit (NumberLayout.json.text value) latest
  | .string text, latest => emit (quoted text) latest
  | .array [], latest => ']' :: '[' :: latest
  | .array (item :: rest), latest =>
    let first := write layout (depth + 1) item (emit (layout.lineBreak (depth + 1)) ('[' :: latest))
    ']' :: emit (layout.lineBreak depth) (writeItems layout (depth + 1) rest first)
  | .object [], latest => '}' :: '{' :: latest
  | .object ((key, value) :: rest), latest =>
    let opened := emit (layout.lineBreak (depth + 1)) ('{' :: latest)
    let first := write layout (depth + 1) value (emit layout.colon (emit (quoted key) opened))
    '}' :: emit (layout.lineBreak depth) (writeMembers layout (depth + 1) rest first)

def writeItems (layout : Layout) (depth : Nat) : List Value → List Char → List Char
  | [], latest => latest
  | item :: rest, latest =>
    writeItems layout depth rest
      (write layout depth item (emit (layout.lineBreak depth) (',' :: latest)))

def writeMembers (layout : Layout) (depth : Nat) : List (String × Value) → List Char → List Char
  | [], latest => latest
  | (key, value) :: rest, latest =>
    let started := emit (quoted key) (emit (layout.lineBreak depth) (',' :: latest))
    writeMembers layout depth rest (write layout depth value (emit layout.colon started))

end

def Value.text (layout : Layout) (value : Value) : String :=
  String.ofList (write layout 0 value []).reverse

def Value.compact (value : Value) : String :=
  value.text .compact

def Value.pretty (value : Value) : String :=
  value.text (.indented 2)

end JsonProjection.Json
