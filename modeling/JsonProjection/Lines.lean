import JsonProjection.Source
import JsonProjection.Text.Blank

/-!
Cutting a source into numbered lines.

Lines end at a newline byte and lose one carriage return in front of it. Blank lines are left out,
but they count: numbers are those of all lines, from 1 on. The source may come in chunks cut
anywhere.
-/

namespace JsonProjection

structure Line where
  number : Nat
  bytes : Bytes
  deriving DecidableEq, Repr

/-- The line under way, latest byte first, and how many lines have ended. -/
structure LineFramer where
  latest : Bytes
  seen : Nat
  deriving DecidableEq, Repr

namespace LineFramer

def new : LineFramer :=
  ⟨[], 0⟩

def buffered (framer : LineFramer) : Nat :=
  framer.latest.length

/-- The content of a line, given latest byte first: without one carriage return at its end, and
only if it is not blank. -/
def content? (latest : Bytes) : Option Bytes :=
  let kept :=
    match latest with
    | 0x0D :: rest => rest
    | _ => latest
  if kept.all Text.isBlankByte then none else some kept.reverse

/-- The framer behind a chunk, and the lines that ended in it put in front of `lines`, latest
first. -/
def pushFrom (framer : LineFramer) (lines : List Line) : Bytes → LineFramer × List Line
  | [] => (framer, lines)
  | byte :: rest =>
    if byte == 0x0A then
      let number := framer.seen + 1
      match content? framer.latest with
      | some bytes => pushFrom ⟨[], number⟩ (⟨number, bytes⟩ :: lines) rest
      | none => pushFrom ⟨[], number⟩ lines rest
    else pushFrom ⟨byte :: framer.latest, framer.seen⟩ lines rest

def push (framer : LineFramer) (chunk : Bytes) : LineFramer × List Line :=
  let (framer, lines) := framer.pushFrom [] chunk
  (framer, lines.reverse)

/-- The end of the source: the last line, if it was not ended by a newline and is not blank. -/
def finish (framer : LineFramer) : LineFramer × Option Line :=
  match content? framer.latest with
  | some bytes => (⟨[], framer.seen + 1⟩, some ⟨framer.seen + 1, bytes⟩)
  | none => (⟨[], framer.seen⟩, none)

end LineFramer
end JsonProjection
