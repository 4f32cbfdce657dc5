import JsonProjection.Number.Count
import JsonProjection.Pool.State
import JsonProjection.Text.Blank

/-!
Settings for a whole program, taken from named variables.

A variable that is not set, or whose value is no count, leaves the default in place; the latter
gives a warning too.
-/

namespace JsonProjection

/-- How many workers there are, how many requests may wait for one, how many strings an engine
caches, and how many bytes are read at a time. -/
structure Settings where
  workers : Nat
  queueCapacity : Nat
  cacheCapacity : Nat
  chunkSize : Nat
  deriving DecidableEq, Repr

structure SettingWarning where
  key : String
  value : String
  deriving DecidableEq, Repr

def SettingWarning.message : String :=
  "ignoring unparsable setting"

namespace Settings

def ofProcessors (processors : Nat) : Settings :=
  ⟨processors, 1024, StringCache.defaultCapacity, 65536⟩

def workersKey : String := "JQL_WORKERS"

def queueCapacityKey : String := "JQL_QUEUE_CAPACITY"

def cacheCapacityKey : String := "JQL_CACHE_CAPACITY"

def chunkSizeKey : String := "JQL_CHUNK_SIZE"

def keys : List String :=
  [workersKey, queueCapacityKey, cacheCapacityKey, chunkSizeKey]

/-- The count that a variable holds, with white space around it, or the default. -/
def read (lookup : String → Option String) (key : String) (default : Nat) :
    Nat × List SettingWarning :=
  match lookup key with
  | none => (default, [])
  | some value =>
    match Count.ofChars? (Text.trim value.toList) with
    | some count => (count, [])
    | none => (default, [⟨key, value⟩])

/-- The settings that variables give. There is at least one worker, and at least one byte is read
at a time. -/
def ofLookup (processors : Nat) (lookup : String → Option String) :
    Settings × List SettingWarning :=
  let defaults := ofProcessors processors
  let (workers, first) := read lookup workersKey defaults.workers
  let (queueCapacity, second) := read lookup queueCapacityKey defaults.queueCapacity
  let (cacheCapacity, third) := read lookup cacheCapacityKey defaults.cacheCapacity
  let (chunkSize, fourth) := read lookup chunkSizeKey defaults.chunkSize
  (⟨max 1 workers, queueCapacity, cacheCapacity, max 1 chunkSize⟩,
    first ++ second ++ third ++ fourth)

def poolConfig (settings : Settings) : PoolConfig :=
  ⟨settings.workers, settings.queueCapacity⟩

def engineOptions (settings : Settings) (mode : EmitMode) : EngineOptions :=
  ⟨mode, settings.cacheCapacity, StringCache.defaultLengthBound⟩

end Settings
end JsonProjection
