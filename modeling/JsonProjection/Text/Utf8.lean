import JsonProjection.Source

/-!
Reading UTF-8 byte by byte, with a rule for bytes that are not UTF-8.

A byte sequence falls into pieces: each piece is one well-formed character, or a longest run of
bytes that begins a character and cannot be continued to a whole one. `decodeLossy` puts the
replacement character in the place of every piece of the second sort, `decode?` refuses the text
instead.
-/

namespace JsonProjection.Text.Utf8

/-- Where a reader stands between two bytes: at a boundary, or inside a character whose next byte
has to lie between `low` and `high` and is followed by `more` further bytes. -/
inductive State where
  | boundary
  | inside (more : Nat) (low high : UInt8) (code : Nat)
  deriving DecidableEq, Repr

structure Reader where
  state : State
  latest : List (Option Char)

/-- The first byte of a piece. The tighter bounds after `E0`, `ED`, `F0` and `F4` exclude overlong
forms, surrogates and code points above `10FFFF`. -/
def Reader.lead (latest : List (Option Char)) (byte : UInt8) : Reader :=
  if byte < 0x80 then ⟨.boundary, some (Char.ofNat byte.toNat) :: latest⟩
  else if byte < 0xC2 then ⟨.boundary, none :: latest⟩
  else if byte < 0xE0 then ⟨.inside 0 0x80 0xBF (byte.toNat - 0xC0), latest⟩
  else if byte == 0xE0 then ⟨.inside 1 0xA0 0xBF 0, latest⟩
  else if byte == 0xED then ⟨.inside 1 0x80 0x9F 0xD, latest⟩
  else if byte < 0xF0 then ⟨.inside 1 0x80 0xBF (byte.toNat - 0xE0), latest⟩
  else if byte == 0xF0 then ⟨.inside 2 0x90 0xBF 0, latest⟩
  else if byte < 0xF4 then ⟨.inside 2 0x80 0xBF (byte.toNat - 0xF0), latest⟩
  else if byte == 0xF4 then ⟨.inside 2 0x80 0x8F 4, latest⟩
  else ⟨.boundary, none :: latest⟩

/-- One byte more. A byte that cannot continue the character under way ends a malformed piece and
begins a piece of its own. -/
def Reader.push : Reader → UInt8 → Reader
  | ⟨.boundary, latest⟩, byte => Reader.lead latest byte
  | ⟨.inside more low high code, latest⟩, byte =>
    if low ≤ byte && byte ≤ high then
      let code := code * 64 + (byte.toNat - 0x80)
      match more with
      | 0 => ⟨.boundary, some (Char.ofNat code) :: latest⟩
      | more + 1 => ⟨.inside more 0x80 0xBF code, latest⟩
    else Reader.lead (none :: latest) byte

/-- All pieces in order. A character that the text leaves unfinished is malformed. -/
def Reader.close (reader : Reader) : List (Option Char) :=
  match reader.state with
  | .boundary => reader.latest.reverse
  | .inside .. => (none :: reader.latest).reverse

def pieces (bytes : Bytes) : List (Option Char) :=
  (bytes.foldl Reader.push ⟨.boundary, []⟩).close

def decodeLossy (bytes : Bytes) : String :=
  String.ofList ((pieces bytes).map (·.getD '\uFFFD'))

def decode? (bytes : Bytes) : Option String :=
  ((pieces bytes).mapM id).map String.ofList

def encode (text : String) : Bytes :=
  text.toList.flatMap String.utf8EncodeChar

end JsonProjection.Text.Utf8
