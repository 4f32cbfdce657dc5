/-!
Source text: bytes, and the ranges of it that tokens and raw matches point at.

All offsets of the library count bytes from the first byte of the source, and every range is half
open, so that `span.start` is the first byte inside and `span.stop` the first byte behind.
-/

namespace JsonProjection

/-- Source text as it arrives: bytes that need not be valid UTF-8. -/
abbrev Bytes := List UInt8

/-- The bytes from offset `start` up to, and without, offset `stop`. -/
structure Span where
  start : Nat
  stop : Nat
  deriving DecidableEq, Repr, Inhabited

def Span.length (span : Span) : Nat :=
  span.stop - span.start

def Span.isEmpty (span : Span) : Bool :=
  span.start == span.stop

def Span.of (span : Span) (source : Bytes) : Bytes :=
  (source.drop span.start).take span.length

end JsonProjection
