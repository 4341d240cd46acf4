import ReadThrough.Decimal
import ReadThrough.Text.Record

/-! # Configuration

  What a cache is told when it is made.

  - **NullPolicy**: how long a load that succeeded without a value is believed.
  - **IdlePolicy**: what an idle pass does to an entry that nobody has used for a while.
  - **Pressure**: how urgently memory is asked back.
  - **Config**: the seven settings, all of which have defaults.
-/

namespace ReadThrough

/-! ## Policies -/

/-- What happens to a load that succeeded without a value. -/
inductive NullPolicy where
  /-- The empty result is kept like a value and obeys the same expiry. -/
  | keep
  /-- The empty result is loaded again once it is `seconds` old. -/
  | retry (seconds : Nat)
  deriving DecidableEq, Repr

/-- What an idle pass does to an idle entry that is neither pending nor dirty. -/
inductive IdlePolicy where
  /-- The entry is removed. -/
  | remove
  /-- The cache lets go of the value but keeps the entry, so that the value can be found for as
      long as someone else holds it. -/
  | detach
  /-- The entry is removed if it has no value or if only the cache holds its value, and its value
      is let go otherwise. -/
  | reachability
  deriving DecidableEq, Repr

/-- How urgently memory is asked back. -/
inductive Pressure where
  /-- About a quarter of the entries should go. -/
  | low
  /-- Every entry that can go should go. -/
  | critical
  deriving DecidableEq, Repr

/-! ## Settings -/

/-- The settings of a cache. -/
structure Config where
  /-- The greatest number of entries. -/
  maxCapacity : Nat := 256
  /-- The number of entries the table is sized for at first. -/
  initialCapacity : Nat := 0
  /-- The ratio of entries to buckets above which the table grows. -/
  loadFactor : Float := 0.75
  /-- How many seconds a caller waits for another caller's load of the same key. -/
  pendingTimeout : Nat := 5
  /-- The greatest number of loads in flight, where zero lifts the limit. -/
  loadLimit : Nat := 0
  /-- What happens to an empty result. -/
  nullPolicy : NullPolicy := .keep
  /-- What an idle pass does. -/
  idlePolicy : IdlePolicy := .reachability

namespace Config

/-- Whether a configuration is the one that all defaults give. -/
def isDefault (c : Config) : Bool :=
  let d : Config := {}
  c.maxCapacity == d.maxCapacity && c.initialCapacity == d.initialCapacity &&
    c.loadFactor == d.loadFactor && c.pendingTimeout == d.pendingTimeout &&
    c.loadLimit == d.loadLimit && c.nullPolicy == d.nullPolicy && c.idlePolicy == d.idlePolicy

end Config

/-! ## Text -/

/-- The text of a null policy. -/
def NullPolicy.describe : NullPolicy → String
  | .keep => "Cache"
  | .retry seconds => Text.closedRecord "Retry" [("null_timeout_secs", toString seconds)]

/-- The text of an idle policy. -/
def IdlePolicy.describe : IdlePolicy → String
  | .remove => "Remove"
  | .detach => "Detach"
  | .reachability => "ReachabilityAware"

/-- The text of a pressure level. -/
def Pressure.describe : Pressure → String
  | .low => "Low"
  | .critical => "Critical"

/-- Ratios are written positionally from a ten-thousandth up to below ten to the sixteenth. -/
def Config.ratioStyle : Decimal.Style := { least := -4, greatest := 15 }

/-- The text of a ratio. -/
def Config.describeRatio (x : Float) : String :=
  ratioStyle.write (.ofBits x.toBits)

/-- The text of a configuration. -/
def Config.describe (c : Config) : String :=
  Text.closedRecord "CacheConfig"
    [("max_capacity", toString c.maxCapacity),
     ("initial_capacity", toString c.initialCapacity),
     ("load_factor", describeRatio c.loadFactor),
     ("pending_timeout_secs", toString c.pendingTimeout),
     ("max_load_concurrency", toString c.loadLimit),
     ("null_policy", c.nullPolicy.describe),
     ("idle_policy", c.idlePolicy.describe)]

end ReadThrough
