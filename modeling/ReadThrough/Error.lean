/-! # Errors

  Why a call into the cache or the table fails. A failed load is reported to every caller that
  waited for it, so errors are plain values that can be handed out any number of times.
-/

namespace ReadThrough

/-- The causes of a failed call. -/
inductive CacheError where
  /-- Another caller's load or update of the key did not finish within `seconds`. -/
  | loadTimeout (seconds : Nat)
  /-- As many loads as the limit allows are in flight. -/
  | overload (limit : Nat)
  /-- A new key found `capacity` entries in place, too few of which can be evicted. -/
  | capacityExhausted (capacity : Nat)
  /-- The loader failed for the given reason. -/
  | loader (reason : String)
  /-- The updater failed for the given reason. -/
  | updater (reason : String)
  deriving DecidableEq, Repr

namespace CacheError

/-- The text of a duration of whole seconds; no time at all is counted in nanoseconds. -/
def describeSeconds (seconds : Nat) : String :=
  if seconds = 0 then "0ns" else toString seconds ++ "s"

/-- What is wrong, in words. -/
def message : CacheError → String
  | loadTimeout seconds =>
    "timed out after " ++ describeSeconds seconds ++ " waiting for an in-flight load"
  | overload limit => "too many concurrent loads: limit is " ++ toString limit
  | capacityExhausted capacity =>
    "capacity of " ++ toString capacity ++ " entries exhausted: every entry is pending or dirty"
  | loader reason => "loader failed: " ++ reason
  | updater reason => "updater failed: " ++ reason

/-- The reason that a callback gave, if a callback is to blame. -/
def source? : CacheError → Option String
  | loader reason => some reason
  | updater reason => some reason
  | _ => none

/-- Whether the same call may succeed later without anything else being done. -/
def isTransient : CacheError → Bool
  | loadTimeout _ => true
  | overload _ => true
  | _ => false

end CacheError

end ReadThrough
