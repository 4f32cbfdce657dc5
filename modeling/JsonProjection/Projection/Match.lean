import JsonProjection.Json.StrictReader
import JsonProjection.Source

/-!
What a projection delivers.

A match is a projected value, one for the root of a document or one for every item of a root array;
or, in raw mode, the source bytes of one selected leaf.
-/

namespace JsonProjection

inductive EmitMode where
  | materialize
  | raw
  deriving DecidableEq, Repr, Inhabited

/-- The source bytes of one occurrence of a selected leaf, under the name of its field. -/
structure RawMatch where
  key : String
  span : Span
  bytes : Bytes
  deriving DecidableEq, Repr

def RawMatch.value? (leaf : RawMatch) : Option Json.Value :=
  Json.readStrict? leaf.bytes

inductive Match where
  | value (value : Json.Value)
  | raw (leaf : RawMatch)
  deriving Repr

def Match.value? : Match → Option Json.Value
  | .value projected => some projected
  | .raw _ => none

def Match.raw? : Match → Option RawMatch
  | .value _ => none
  | .raw leaf => some leaf

structure Counts where
  matched : Nat
  processed : Nat
  skipped : Nat
  deriving DecidableEq, Repr, Inhabited

/-- The share of the bytes read that was skipped, as the nearest double; zero if none was read. -/
def Counts.skipRatio (counts : Counts) : Binary64 :=
  if counts.processed = 0 then ⟨false, 0⟩
  else (Binary64.ofNat counts.skipped).div (Binary64.ofNat counts.processed)

/-- Whether the root of a document is an array, whose items are matches of their own. -/
inductive RootShape where
  | single
  | array
  deriving DecidableEq, Repr

structure Document where
  mode : EmitMode
  shape : Option RootShape
  found : List Match
  counts : Counts
  deriving Repr

namespace Document

/-- The projected root, put together again from the matches. In raw mode there is none. -/
def value? (document : Document) : Option Json.Value :=
  let values := document.found.filterMap Match.value?
  match document.mode, document.shape with
  | .materialize, some .single => values.head?
  | .materialize, some .array => some (.array values)
  | _, _ => none

def raws (document : Document) : List RawMatch :=
  document.found.filterMap Match.raw?

end Document
end JsonProjection
