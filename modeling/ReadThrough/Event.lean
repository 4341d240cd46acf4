import ReadThrough.Config
import ReadThrough.Error

/-! # Events

  What the table and the cache report about their work, for a log.

  - **Event**: what happened, with the figures that go with it.
  - **Level**, **message**, **fields**: how an event is shown.
-/

namespace ReadThrough

/-- The importance of an event. -/
inductive Level where
  | trace
  | debug
  | info
  | warn
  | error
  deriving DecidableEq, Repr

/-- How a batch of dirty entries is finished. -/
inductive Finish where
  /-- The consumed entries have been written. -/
  | commit
  /-- Every entry goes back. -/
  | rollback
  /-- The consumer gives up. -/
  | abort
  deriving DecidableEq, Repr

/-- The text of a way to finish. -/
def Finish.describe : Finish → String
  | .commit => "Commit"
  | .rollback => "Rollback"
  | .abort => "Abort"

/-- Something worth a line in the log. -/
inductive Event where
  /-- An insertion made the bucket array grow. -/
  | grown (buckets size : Nat)
  /-- The bucket array grew on demand. -/
  | resized (buckets : Nat)
  /-- The table gave memory back. -/
  | pinched (buckets slots size : Nat)
  /-- No entry could be evicted to make room for a new key. -/
  | noRoom (maxCapacity : Nat)
  /-- A walk along the recency list did not meet exactly the nodes of the table. -/
  | listMismatch (tableSize listSize visited : Nat)
  /-- The recency list was rebuilt from the table. -/
  | listRebuilt (relinked : Nat)
  /-- A lookup found no entry. -/
  | miss
  /-- A lookup found an entry without a value. -/
  | missUnloaded (hash : UInt64)
  /-- A loader is about to run. -/
  | loading (hash : UInt64) (epoch : Nat)
  /-- A loader returned. -/
  | loaded (hash : UInt64) (empty : Bool)
  /-- A loader failed. -/
  | loadFailed (hash : UInt64) (error : CacheError)
  /-- A load found too many others in flight. -/
  | loadRejected (limit : Nat)
  /-- An updater failed. -/
  | updateFailed (hash : UInt64) (error : CacheError)
  /-- A caller stopped waiting for another caller's load. -/
  | waitedOut (seconds : Nat)
  /-- A key was removed by name. -/
  | invalidated (hash : UInt64)
  /-- Every key was removed. -/
  | cleared (removed : Nat)
  /-- Entries were evicted from the least recently used end. -/
  | trimmed (requested evicted : Nat)
  /-- The maximum was lowered below the number of entries. -/
  | maximumLowered (maxCapacity evicted : Nat)
  /-- An idle pass ended. -/
  | idleReleased (cutoff : Nat) (policy : IdlePolicy) (removed detached : Nat)
  /-- A request for memory was answered. -/
  | pressureHandled (level : Pressure) (evicted : Nat) (shrunk : Bool) (remaining : Nat)
  /-- Entries left the dirty chain for a batch. -/
  | drained (count : Nat) (copyOn : Bool)
  /-- A batch was finished. -/
  | finished (how : Finish) (cleaned relinked : Nat) (copyOn : Bool)
  /-- A batch was forgotten before it was finished. -/
  | batchDropped (entries consumed : Nat)
  deriving DecidableEq, Repr

namespace Event

/-- One figure of an event. -/
inductive Field where
  | count (n : Nat)
  | flag (b : Bool)
  | text (s : String)
  deriving DecidableEq, Repr

/-- The importance of an event. -/
def level : Event → Level
  | grown .. => .debug
  | resized .. => .debug
  | pinched .. => .debug
  | noRoom .. => .warn
  | listMismatch .. => .warn
  | listRebuilt .. => .warn
  | miss => .trace
  | missUnloaded .. => .trace
  | loading .. => .trace
  | loaded .. => .debug
  | loadFailed .. => .debug
  | loadRejected .. => .debug
  | updateFailed .. => .debug
  | waitedOut .. => .warn
  | invalidated .. => .debug
  | cleared .. => .debug
  | trimmed .. => .debug
  | maximumLowered .. => .debug
  | idleReleased .. => .debug
  | pressureHandled .. => .debug
  | drained .. => .debug
  | finished .. => .debug
  | batchDropped .. => .warn

/-- What happened, in words. -/
def message : Event → String
  | grown .. => "bucket array grown"
  | resized .. => "bucket array grown"
  | pinched .. => "table pinched"
  | noRoom .. => "no evictable entry left for a new key"
  | listMismatch .. => "LRU list does not match the table"
  | listRebuilt .. => "LRU list rebuilt from the table"
  | miss => "cache miss"
  | missUnloaded .. => "cache miss on an unloaded entry"
  | loading .. => "loading entry"
  | loaded .. => "entry loaded"
  | loadFailed .. => "load failed"
  | loadRejected .. => "load rejected"
  | updateFailed .. => "update failed"
  | waitedOut .. => "gave up waiting for an in-flight load"
  | invalidated .. => "entry invalidated"
  | cleared .. => "cache cleared"
  | trimmed .. => "entries trimmed"
  | maximumLowered .. => "maximum capacity lowered"
  | idleReleased .. => "idle entries released"
  | pressureHandled .. => "memory pressure handled"
  | drained .. => "dirty batch drained"
  | finished .. => "dirty batch finished"
  | batchDropped .. => "dirty batch dropped without commit"

/-- The figures of an event, by name. -/
def fields : Event → List (String × Field)
  | grown buckets size => [("buckets", .count buckets), ("len", .count size)]
  | resized buckets => [("buckets", .count buckets)]
  | pinched buckets slots size =>
    [("buckets", .count buckets), ("slots", .count slots), ("len", .count size)]
  | noRoom maxCapacity => [("max_capacity", .count maxCapacity)]
  | listMismatch tableSize listSize visited =>
    [("table_len", .count tableSize), ("lru_len", .count listSize), ("visited", .count visited)]
  | listRebuilt relinked => [("relinked", .count relinked)]
  | miss => []
  | missUnloaded hash => [("hash", .count hash.toNat)]
  | loading hash epoch => [("hash", .count hash.toNat), ("epoch", .count epoch)]
  | loaded hash empty => [("hash", .count hash.toNat), ("empty", .flag empty)]
  | loadFailed hash error => [("hash", .count hash.toNat), ("error", .text error.message)]
  | loadRejected limit => [("limit", .count limit)]
  | updateFailed hash error => [("hash", .count hash.toNat), ("error", .text error.message)]
  | waitedOut seconds => [("timeout", .text (CacheError.describeSeconds seconds))]
  | invalidated hash => [("hash", .count hash.toNat)]
  | cleared removed => [("removed", .count removed)]
  | trimmed requested evicted => [("requested", .count requested), ("evicted", .count evicted)]
  | maximumLowered maxCapacity evicted =>
    [("max_capacity", .count maxCapacity), ("evicted", .count evicted)]
  | idleReleased cutoff policy removed detached =>
    [("cutoff", .count cutoff), ("policy", .text policy.describe),
     ("removed", .count removed), ("detached", .count detached)]
  | pressureHandled level evicted shrunk remaining =>
    [("level", .text level.describe), ("evicted", .count evicted),
     ("pinched", .flag shrunk), ("remaining", .count remaining)]
  | drained count copyOn => [("drained", .count count), ("copy_on", .flag copyOn)]
  | finished how cleaned relinked copyOn =>
    [("how", .text how.describe), ("cleaned", .count cleaned),
     ("relinked", .count relinked), ("copy_on", .flag copyOn)]
  | batchDropped entries consumed => [("entries", .count entries), ("consumed", .count consumed)]

end Event

end ReadThrough
