import JsonProjection.Token.Basic
import JsonProjection.Token.Error
import JsonProjection.Token.StringCache

/-!
Cutting a document into tokens, byte by byte and chunk by chunk.

A lexer holds the token under way between any two bytes, so that a document may be cut into chunks
anywhere. It is permissive: bytes that start no token are dropped, a backslash in a string stands
for the byte behind it, and a number is any run of number bytes that spells a numeral.

`push` hands every token to a handler as soon as it is complete, `next?` gives one token at a
time; both take the same steps.
-/

namespace JsonProjection

inductive Literal where
  | true
  | false
  | null
  deriving DecidableEq, Repr

def Literal.spelling : Literal → String
  | .true => "true"
  | .false => "false"
  | .null => "null"

def Literal.bytes : Literal → Bytes
  | .true => [0x74, 0x72, 0x75, 0x65]
  | .false => [0x66, 0x61, 0x6C, 0x73, 0x65]
  | .null => [0x6E, 0x75, 0x6C, 0x6C]

def Literal.kind : Literal → Token.Kind
  | .true => .true
  | .false => .false
  | .null => .null

namespace Lexer

/-- The sort of the token under way. A string is `escaped` behind a backslash. -/
inductive Shape where
  | string (escaped : Bool)
  | number
  | literal (word : Literal)
  deriving DecidableEq, Repr

/-- A token under way: where it starts, and the bytes that count of it, latest first. For a string
these are the bytes between the quotes without the backslashes that escape another byte. -/
structure Pending where
  shape : Shape
  start : Nat
  latest : Bytes
  deriving DecidableEq, Repr

/-- What a byte brings about. `completes` ends a token with the byte, `precedes` ends one in front
of it, so that the byte has to be taken again. -/
inductive Outcome where
  | nothing
  | completes (token : Token)
  | precedes (token : Token)
  | fails (error : LexError)

def isNumberByte (byte : UInt8) : Bool :=
  Decimal.isDigit byte || byte == 0x2E || byte == 0x65 || byte == 0x45 || byte == 0x2D ||
    byte == 0x2B

/-- Where the text of the latest string is: held by the cache, or in a buffer of the lexer's own. -/
inductive TextSlot where
  | shared (text : String)
  | owned (buffer : String)
  deriving DecidableEq, Repr

def TextSlot.text : TextSlot → String
  | .shared text => text
  | .owned buffer => buffer

/-- A slot with a text of its own. A buffer is cleared and written again. -/
def TextSlot.write : TextSlot → String → TextSlot
  | .shared _, text => .owned text
  | .owned _, text => .owned ("" ++ text)

end Lexer

structure Lexer where
  position : Nat
  pending : Option Lexer.Pending
  slot : Lexer.TextSlot
  cache : StringCache
  deriving DecidableEq, Repr

namespace Lexer

def new (cache : StringCache) : Lexer :=
  ⟨0, none, .owned "", cache⟩

/-- A lexer put back to the start of a document. It keeps its cache, and the text of the latest
string stays behind. -/
def reset (lexer : Lexer) : Lexer :=
  { lexer with position := 0, pending := none }

def isIdle (lexer : Lexer) : Bool :=
  lexer.pending.isNone

def pendingStart? (lexer : Lexer) : Option Nat :=
  lexer.pending.map (·.start)

@[inline] def mark (lexer : Lexer) (kind : Token.Kind) : Lexer × Outcome :=
  ({ lexer with position := lexer.position + 1 },
    .completes ⟨kind, lexer.position, lexer.position + 1⟩)

@[inline] def begin (lexer : Lexer) (shape : Shape) (bytes : Bytes) : Lexer × Outcome :=
  ({ lexer with position := lexer.position + 1, pending := some ⟨shape, lexer.position, bytes⟩ },
    .nothing)

@[inline] def startToken (lexer : Lexer) (byte : UInt8) : Lexer × Outcome :=
  if byte == 0x7B then lexer.mark .openObject
  else if byte == 0x7D then lexer.mark .closeObject
  else if byte == 0x5B then lexer.mark .openArray
  else if byte == 0x5D then lexer.mark .closeArray
  else if byte == 0x3A then lexer.mark .colon
  else if byte == 0x2C then lexer.mark .comma
  else if byte == 0x22 then lexer.begin (.string false) []
  else if byte == 0x74 then lexer.begin (.literal .true) [byte]
  else if byte == 0x66 then lexer.begin (.literal .false) [byte]
  else if byte == 0x6E then lexer.begin (.literal .null) [byte]
  else if Decimal.isDigit byte || byte == 0x2D then lexer.begin .number [byte]
  else ({ lexer with position := lexer.position + 1 }, .nothing)

@[inline] def extend (lexer : Lexer) (pending : Pending) (shape : Shape) (bytes : Bytes) :
    Lexer × Outcome :=
  ({ lexer with position := lexer.position + 1, pending := some ⟨shape, pending.start, bytes⟩ },
    .nothing)

def Pending.numeral (pending : Pending) : Except LexError Numeral :=
  match Numeral.ofBytes? pending.latest.reverse with
  | some value => .ok value
  | none =>
    .error (.invalidNumber (Text.Utf8.decodeLossy pending.latest.reverse) pending.start)

/-- Puts the text of a string into the slot: what the cache holds for it, or else its own. -/
@[inline] def decodeString (lexer : Lexer) (raw : Bytes) : Lexer :=
  match lexer.cache.intern raw with
  | (some text, cache) => { lexer with slot := .shared text, cache }
  | (none, cache) => { lexer with slot := lexer.slot.write (Text.Utf8.decodeLossy raw), cache }

def stringToken (lexer : Lexer) (start : Nat) : Token :=
  ⟨.string lexer.slot.text, start, lexer.position⟩

/-- Takes one byte, except that a byte behind a number is left to be taken again. Behind an error
the token stays under way. -/
@[inline] def step (lexer : Lexer) (byte : UInt8) : Lexer × Outcome :=
  match lexer.pending with
  | none => lexer.startToken byte
  | some pending =>
    let behind := lexer.position + 1
    match pending.shape with
    | .string true => lexer.extend pending (.string false) (byte :: pending.latest)
    | .string false =>
      if byte == 0x22 then
        let decoded := lexer.decodeString pending.latest.reverse
        let lexer := { decoded with position := behind, pending := none }
        (lexer, .completes (lexer.stringToken pending.start))
      else if byte == 0x5C then lexer.extend pending (.string true) pending.latest
      else lexer.extend pending (.string false) (byte :: pending.latest)
    | .number =>
      if isNumberByte byte then lexer.extend pending .number (byte :: pending.latest)
      else
        match pending.numeral with
        | .error error => (lexer, .fails error)
        | .ok value =>
          ({ lexer with pending := none },
            .precedes ⟨.number value, pending.start, lexer.position⟩)
    | .literal word =>
      let latest := byte :: pending.latest
      let extended := (lexer.extend pending pending.shape latest).1
      if latest.length < word.bytes.length then (extended, .nothing)
      else if latest.reverse = word.bytes then
        ({ extended with pending := none }, .completes ⟨word.kind, pending.start, behind⟩)
      else
        (extended,
          .fails
            (.invalidLiteral word.spelling (Text.Utf8.decodeLossy latest.reverse) pending.start))

/-- The next token of a chunk, the bytes behind it, and the lexer there. At an error the rest of the
chunk is dropped. -/
def next? (lexer : Lexer) : Bytes → Lexer × Bytes × Option (Except LexError Token)
  | [] => (lexer, [], none)
  | byte :: rest =>
    match lexer.step byte with
    | (lexer, .nothing) => next? lexer rest
    | (lexer, .completes token) => (lexer, rest, some (.ok token))
    | (lexer, .precedes token) => (lexer, byte :: rest, some (.ok token))
    | (lexer, .fails error) => (lexer, [], some (.error error))

/-- At most `limit` tokens from the front of a chunk: the lexer and the bytes behind them, the
tokens read before, latest first, with the new ones in front, and the error that ended them. -/
def pull : Nat → Lexer → Bytes → List Token → Lexer × Bytes × List Token × Option LexError
  | 0, lexer, bytes, latest => (lexer, bytes, latest, none)
  | limit + 1, lexer, bytes, latest =>
    match lexer.next? bytes with
    | (lexer, rest, none) => (lexer, rest, latest, none)
    | (lexer, rest, some (.error error)) => (lexer, rest, latest, some error)
    | (lexer, rest, some (.ok token)) => pull limit lexer rest (token :: latest)

/-- Hands the tokens of a chunk to a handler as they become complete. The handler keeps a state and
may refuse a token; a refusal or a lexical error, passed on by `raise`, ends the chunk there and is
the answer. -/
def push {σ ε : Type} (handle : σ → Token → σ × Option ε) (raise : LexError → ε) :
    Lexer → σ → Bytes → Lexer × σ × Option ε
  | lexer, state, [] => (lexer, state, none)
  | lexer, state, byte :: rest =>
    match lexer.step byte with
    | (lexer, .nothing) => push handle raise lexer state rest
    | (lexer, .fails error) => (lexer, state, some (raise error))
    | (lexer, .completes token) =>
      match handle state token with
      | (state, some error) => (lexer, state, some error)
      | (state, none) => push handle raise lexer state rest
    | (lexer, .precedes token) =>
      match handle state token with
      | (state, some error) => (lexer, state, some error)
      | (state, none) =>
        match lexer.startToken byte with
        | (lexer, .completes token) =>
          match handle state token with
          | (state, some error) => (lexer, state, some error)
          | (state, none) => push handle raise lexer state rest
        | (lexer, _) => push handle raise lexer state rest

/-- The end of the document: a number under way is complete, any other token under way is an error,
and the token of the end follows. -/
def finish {σ ε : Type} (handle : σ → Token → σ × Option ε) (raise : LexError → ε)
    (lexer : Lexer) (state : σ) : Lexer × σ × Option ε :=
  let close (lexer : Lexer) (state : σ) : Lexer × σ × Option ε :=
    let (state, error) := handle state ⟨.endOfInput, lexer.position, lexer.position⟩
    (lexer, state, error)
  match lexer.pending with
  | none => close lexer state
  | some pending =>
    match pending.shape with
    | .string _ => (lexer, state, some (raise (.unterminatedString pending.start)))
    | .literal _ => (lexer, state, some (raise (.unterminatedLiteral pending.start)))
    | .number =>
      match pending.numeral with
      | .error error => (lexer, state, some (raise error))
      | .ok value =>
        let lexer := { lexer with pending := none }
        match handle state ⟨.number value, pending.start, lexer.position⟩ with
        | (state, some error) => (lexer, state, some error)
        | (state, none) => close lexer state

end Lexer
end JsonProjection
