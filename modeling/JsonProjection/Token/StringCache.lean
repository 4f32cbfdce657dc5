import JsonProjection.Text.Utf8

/-!
A cache of decoded short strings.

The cache keeps the first `capacity` distinct byte strings shorter than `lengthBound`, each with its
text, and never gives one up. It saves decoding and changes no text.
-/

namespace JsonProjection

/-- The strings held, in order of first appearance, and how often one was found held already. -/
structure StringCache where
  capacity : Nat
  lengthBound : Nat
  entries : List (Bytes × String)
  hits : Nat
  deriving DecidableEq, Repr

namespace StringCache

def defaultCapacity : Nat := 500

def defaultLengthBound : Nat := 32

def new (capacity lengthBound : Nat) : StringCache :=
  ⟨capacity, lengthBound, [], 0⟩

def size (cache : StringCache) : Nat :=
  cache.entries.length

def isFull (cache : StringCache) : Bool :=
  cache.capacity ≤ cache.size

/-- The text held for a byte string, which is put in if there is room, and the cache behind the
look-up. There is no text if the string is too long, or new to a full cache. -/
def intern (cache : StringCache) (raw : Bytes) : Option String × StringCache :=
  if cache.lengthBound ≤ raw.length then (none, cache)
  else
    match cache.entries.lookup raw with
    | some text => (some text, { cache with hits := cache.hits + 1 })
    | none =>
      if cache.isFull then (none, cache)
      else
        let text := Text.Utf8.decodeLossy raw
        (some text, { cache with entries := cache.entries ++ [(raw, text)] })

end StringCache
end JsonProjection
