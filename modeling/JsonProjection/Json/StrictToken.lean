import JsonProjection.Json.StrictNumber
import JsonProjection.Text.Utf8

/-!
Tokens of standard JSON text.

The scanner takes a text byte by byte and refuses it at the first byte that no standard text has
at that place: a character that starts no token, a control character inside a string, an unknown
escape, half of a surrogate pair, a misspelled word or number, or a string that is not UTF-8.
-/

namespace JsonProjection.Json

inductive StrictToken where
  | openObject
  | closeObject
  | openArray
  | closeArray
  | colon
  | comma
  | scalar (value : Value)
  deriving Repr

namespace StrictToken

/-- The token under way. Byte lists hold what was read of it, latest first; strings are collected
with their escapes replaced. `unit` reads the four digits of an escape, `low` the mark between the
two halves of a surrogate pair. -/
inductive State where
  | between
  | text (latest : Bytes)
  | escape (latest : Bytes)
  | unit (latest : Bytes) (high : Option Nat) (missing code : Nat)
  | low (latest : Bytes) (high : Nat) (slash : Bool)
  | number (latest : Bytes)
  | word (value : Value) (missing : Bytes)

structure Scanner where
  state : State
  latest : List StrictToken

def isSpace (byte : UInt8) : Bool :=
  byte == 0x20 || byte == 0x09 || byte == 0x0A || byte == 0x0D

def isNumberByte (byte : UInt8) : Bool :=
  Decimal.isDigit byte || byte == 0x2E || byte == 0x65 || byte == 0x45 || byte == 0x2B ||
    byte == 0x2D

def hexValue? (byte : UInt8) : Option Nat :=
  if Decimal.isDigit byte then some (byte.toNat - 0x30)
  else if 0x61 ≤ byte && byte ≤ 0x66 then some (byte.toNat - 0x61 + 10)
  else if 0x41 ≤ byte && byte ≤ 0x46 then some (byte.toNat - 0x41 + 10)
  else none

def appendChar (latest : Bytes) (code : Nat) : Bytes :=
  (String.utf8EncodeChar (Char.ofNat code)).reverse ++ latest

def Scanner.start (latest : List StrictToken) (byte : UInt8) : Option Scanner :=
  if isSpace byte then some ⟨.between, latest⟩
  else if byte == 0x7B then some ⟨.between, .openObject :: latest⟩
  else if byte == 0x7D then some ⟨.between, .closeObject :: latest⟩
  else if byte == 0x5B then some ⟨.between, .openArray :: latest⟩
  else if byte == 0x5D then some ⟨.between, .closeArray :: latest⟩
  else if byte == 0x3A then some ⟨.between, .colon :: latest⟩
  else if byte == 0x2C then some ⟨.between, .comma :: latest⟩
  else if byte == 0x22 then some ⟨.text [], latest⟩
  else if byte == 0x74 then some ⟨.word (.bool true) [0x72, 0x75, 0x65], latest⟩
  else if byte == 0x66 then some ⟨.word (.bool false) [0x61, 0x6C, 0x73, 0x65], latest⟩
  else if byte == 0x6E then some ⟨.word .null [0x75, 0x6C, 0x6C], latest⟩
  else if Decimal.isDigit byte || byte == 0x2D then some ⟨.number [byte], latest⟩
  else none

def escapeState? (latest : Bytes) (byte : UInt8) : Option State :=
  if byte == 0x22 || byte == 0x5C || byte == 0x2F then some (.text (byte :: latest))
  else if byte == 0x62 then some (.text (0x08 :: latest))
  else if byte == 0x66 then some (.text (0x0C :: latest))
  else if byte == 0x6E then some (.text (0x0A :: latest))
  else if byte == 0x72 then some (.text (0x0D :: latest))
  else if byte == 0x74 then some (.text (0x09 :: latest))
  else if byte == 0x75 then some (.unit latest none 4 0)
  else none

/-- A complete `\u` unit: a character, the first half of a pair, or the second half of one. -/
def unitState? (latest : Bytes) : Option Nat → Nat → Option State
  | none, code =>
    if 0xD800 ≤ code && code < 0xDC00 then some (.low latest code false)
    else if 0xDC00 ≤ code && code < 0xE000 then none
    else some (.text (appendChar latest code))
  | some high, code =>
    if 0xDC00 ≤ code && code < 0xE000 then
      some (.text (appendChar latest (0x10000 + (high - 0xD800) * 0x400 + (code - 0xDC00))))
    else none

def Scanner.close? (scanner : Scanner) : Option (List StrictToken) :=
  match scanner.state with
  | .between => some scanner.latest
  | .number latest =>
    (StrictNumber.value? latest.reverse).map fun value => .scalar value :: scanner.latest
  | _ => none

def Scanner.push (scanner : Scanner) (byte : UInt8) : Option Scanner :=
  match scanner.state with
  | .between => Scanner.start scanner.latest byte
  | .text latest =>
    if byte == 0x22 then
      (Text.Utf8.decode? latest.reverse).map fun text =>
        ⟨.between, .scalar (.string text) :: scanner.latest⟩
    else if byte == 0x5C then some ⟨.escape latest, scanner.latest⟩
    else if byte < 0x20 then none
    else some ⟨.text (byte :: latest), scanner.latest⟩
  | .escape latest => (escapeState? latest byte).map (⟨·, scanner.latest⟩)
  | .unit latest high missing code =>
    (hexValue? byte).bind fun digit =>
      let code := code * 16 + digit
      if missing ≤ 1 then (unitState? latest high code).map (⟨·, scanner.latest⟩)
      else some ⟨.unit latest high (missing - 1) code, scanner.latest⟩
  | .low latest high slash =>
    if !slash && byte == 0x5C then some ⟨.low latest high true, scanner.latest⟩
    else if slash && byte == 0x75 then some ⟨.unit latest (some high) 4 0, scanner.latest⟩
    else none
  | .number latest =>
    if isNumberByte byte then some ⟨.number (byte :: latest), scanner.latest⟩
    else (Scanner.close? scanner).bind (Scanner.start · byte)
  | .word value missing =>
    match missing with
    | [] => none
    | expected :: rest =>
      if byte != expected then none
      else if rest.isEmpty then some ⟨.between, .scalar value :: scanner.latest⟩
      else some ⟨.word value rest, scanner.latest⟩

def scanFrom : Scanner → Bytes → Option Scanner
  | scanner, [] => some scanner
  | scanner, byte :: rest =>
    match scanner.push byte with
    | none => none
    | some scanner => scanFrom scanner rest

def ofBytes? (text : Bytes) : Option (List StrictToken) :=
  ((scanFrom ⟨.between, []⟩ text).bind Scanner.close?).map List.reverse

end StrictToken
end JsonProjection.Json
