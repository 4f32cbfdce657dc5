import JsonProjection.Source

/-!
Sources that arrive piece by piece and may break off.
-/

namespace JsonProjection

inductive Arrival where
  | chunk (bytes : Bytes)
  | failure (reason : String)
  deriving DecidableEq, Repr

namespace Arrival

/-- Cuts bytes into pieces of `size`, the last one possibly shorter. `room` bytes are missing of the
piece under way, whose bytes so far are `latest`. -/
def cutFrom (size room : Nat) (latest : Bytes) : Bytes → List Bytes
  | [] => if latest.isEmpty then [] else [latest.reverse]
  | byte :: rest =>
    match room with
    | 0 => latest.reverse :: cutFrom size (size - 1) [byte] rest
    | room + 1 => cutFrom size room (byte :: latest) rest

def cut (size : Nat) (bytes : Bytes) : List Bytes :=
  cutFrom (max 1 size) (max 1 size) [] bytes

/-- What a reader gets that takes at most `size` bytes at a time: longer chunks come in pieces, and
empty ones not at all. -/
def reads (size : Nat) (source : List Arrival) : List Arrival :=
  source.flatMap fun arrival =>
    match arrival with
    | .chunk bytes => (cut size bytes).map .chunk
    | .failure reason => [.failure reason]

end Arrival
end JsonProjection
