import JsonProjection.Json.Printer
import JsonProjection.Projection.Match

/-!
Figures about a run: what was counted, and how long it took.

All quotients are those of double arithmetic, every step rounded.
-/

namespace JsonProjection

structure Stats where
  counts : Counts
  nanoseconds : Nat
  deriving DecidableEq, Repr

namespace Stats

def second : Nat :=
  1000000000

/-- The time in milliseconds. The whole seconds and the rest become doubles of their own, which
are added. -/
def duration (stats : Stats) : Binary64 :=
  let fraction := (Binary64.ofNat (stats.nanoseconds % second)).div (Binary64.ofNat second)
  ((Binary64.ofNat (stats.nanoseconds / second)).add fraction).mul (Binary64.ofNat 1000)

def throughput (stats : Stats) : Binary64 :=
  if stats.duration.isZero then ⟨false, 0⟩
  else
    ((Binary64.ofNat stats.counts.processed).mul (Binary64.ofNat 8)).div
      (stats.duration.mul (Binary64.ofNat 1000))

def skipRatio (stats : Stats) : Binary64 :=
  stats.counts.skipRatio

def toJson (stats : Stats) : Json.Value :=
  .object
    [("matchedCount", .integer stats.counts.matched),
      ("processedBytes", .integer stats.counts.processed),
      ("durationMs", .float stats.duration),
      ("throughputMbps", .float stats.throughput),
      ("skipRatio", .float stats.skipRatio)]

end Stats
end JsonProjection
