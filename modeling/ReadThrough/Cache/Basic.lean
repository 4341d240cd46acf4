import ReadThrough.Cache.DirtyChain
import ReadThrough.Clock
import ReadThrough.Table.Sweep

/-! # The Cache

  A read-through and write-back cache over a table of entries.

  - **Counters**, **Stats**: what the cache has counted.
  - **Cache**: table, entries, dirty chain, clock, limits and counters.
  - The functions here look at the cache or change one part of it. Calls, which may run a
    callback, eviction and write-back have modules of their own.
-/

namespace ReadThrough

variable {K V : Type}

/-! ## Counters -/

/-- What the cache counts. -/
structure Counters where
  /-- Lookups that found a value. -/
  hits : Nat := 0
  /-- Lookups that found no usable value. -/
  misses : Nat := 0
  /-- Loaders that returned. -/
  loads : Nat := 0
  /-- Loaders that failed. -/
  loadFailures : Nat := 0
  /-- Waits that were given up. -/
  loadTimeouts : Nat := 0
  /-- Loads that found too many others in flight. -/
  overloads : Nat := 0
  /-- Entries that were evicted. -/
  evictions : Nat := 0
  /-- Values that were let go. -/
  detaches : Nat := 0
  deriving DecidableEq, Repr

/-- The counters, and how often the recency list was rebuilt. -/
structure Stats extends Counters where
  listRepairs : Nat := 0
  deriving DecidableEq, Repr

/-- The figures of the statistics, by name. -/
def Stats.figures (s : Stats) : List (String × Nat) :=
  [("hits", s.hits), ("misses", s.misses), ("loads", s.loads),
   ("load_failures", s.loadFailures), ("load_timeouts", s.loadTimeouts),
   ("overloads", s.overloads), ("evictions", s.evictions), ("detaches", s.detaches),
   ("lru_repairs", s.listRepairs)]

/-- The text of the statistics. -/
def Stats.describe (s : Stats) : String :=
  Text.closedRecord "CacheStats" (s.figures.map fun (name, n) => (name, toString n))

/-! ## State -/

/-- A node of the table of a cache. -/
abbrev EntryNode (K : Type) := Table.Node K EntryId

/-- A cache from keys to shared values. -/
structure Cache (K V : Type) where
  table : Table K EntryId
  /-- All entries ever made; the table holds their places. -/
  entries : Entries K V
  chain : DirtyChain
  clock : Clock
  /-- How many seconds a caller waits for another caller's load. -/
  pendingTimeout : Nat
  /-- The greatest number of loads in flight, where zero lifts the limit. -/
  loadLimit : Nat
  /-- The number of loads in flight. -/
  loading : Nat
  nullPolicy : NullPolicy
  idlePolicy : IdlePolicy
  counters : Counters
  /-- The identity of the next value. -/
  nextValue : Nat
  /-- The events reported so far, the latest one first. -/
  log : List Event

namespace Cache

/-- A cache without entries. -/
def new (config : Config) (clock : Clock) (hashOf : K → UInt64) : Cache K V :=
  { table := .empty config.initialCapacity config.maxCapacity (.ofFloat config.loadFactor) hashOf
    entries := #[]
    chain := {}
    clock
    pendingTimeout := config.pendingTimeout
    loadLimit := config.loadLimit
    loading := 0
    nullPolicy := config.nullPolicy
    idlePolicy := config.idlePolicy
    counters := {}
    nextValue := 0
    log := [] }

/-! ## Inspection -/

/-- The number of entries, those without a value included. -/
def size (c : Cache K V) : Nat :=
  c.table.size

/-- The current tick. -/
def now (c : Cache K V) : Nat :=
  c.clock.now

/-- The number of entries in the dirty chain. Those in open batches do not count. -/
def dirtyLength (c : Cache K V) : Nat :=
  c.chain.length

/-- The statistics. -/
def stats (c : Cache K V) : Stats :=
  { c.counters with listRepairs := c.table.repairs }

/-- The state of an entry. -/
def valueOf (c : Cache K V) (id : EntryId) : ValueState V :=
  (c.entries[id]?.map Entry.value).getD .unassigned

/-- The value that can be had from an entry. -/
def peek (held : Held) (c : Cache K V) (id : EntryId) : Option (Value V) :=
  (c.valueOf id).peek held

/-- Whether a key has a value. Nothing changes. -/
def contains [DecidableEq K] (held : Held) (c : Cache K V) (key : K) : Bool :=
  (c.table.get? key).any fun node => (c.peek held node.payload).isSome

/-- The keys with their values, by slot. -/
def scan (held : Held) (c : Cache K V) : List (K × Value V) :=
  c.table.nodes.filterMap fun node => (c.peek held node.payload).map fun v => (node.key, v)

/-- The tick of the latest use of an entry. -/
def lastUse (entries : Entries K V) (id : EntryId) : Nat :=
  (entries[id]?.map Entry.lastAccess).getD 0

/-- The text of a cache. -/
def describe (c : Cache K V) : String :=
  Text.openRecord "LoadingCache"
    [("table", c.table.describe), ("dirty", toString c.dirtyLength),
     ("loading", toString c.loading), ("null_policy", c.nullPolicy.describe),
     ("idle_policy", c.idlePolicy.describe)]

/-! ## Changes of one part -/

/-- Reports an event. -/
def emit (e : Event) (c : Cache K V) : Cache K V :=
  { c with log := e :: c.log }

/-- Counts. -/
def count (f : Counters → Counters) (c : Cache K V) : Cache K V :=
  { c with counters := f c.counters }

/-- Counts a lookup that found a value. -/
def countHit (c : Cache K V) : Cache K V :=
  c.count fun k => { k with hits := k.hits + 1 }

/-- Counts a lookup that found no usable value. -/
def countMiss (c : Cache K V) : Cache K V :=
  c.count fun k => { k with misses := k.misses + 1 }

/-- Changes the table and the entries together. -/
def change (f : Table K EntryId → Entries K V → Table K EntryId × Entries K V) (c : Cache K V) :
    Cache K V :=
  match c with
  | { table, entries, chain, clock, pendingTimeout, loadLimit, loading, nullPolicy, idlePolicy,
      counters, nextValue, log } =>
    let (table, entries) := f table entries
    { table, entries, chain, clock, pendingTimeout, loadLimit, loading, nullPolicy, idlePolicy,
      counters, nextValue, log }

/-- Asks the table, whose answer comes with the entries afterwards. -/
def consult {α : Type}
    (f : Table K EntryId → Entries K V → Table.Answer K EntryId (α × Entries K V))
    (c : Cache K V) : Cache K V × α :=
  match c with
  | { table, entries, chain, clock, pendingTimeout, loadLimit, loading, nullPolicy, idlePolicy,
      counters, nextValue, log } =>
    let { table, value := (a, entries), events } := f table entries
    ({ table, entries, chain, clock, pendingTimeout, loadLimit, loading, nullPolicy, idlePolicy,
       counters, nextValue, log := events.reverse ++ log }, a)

/-- Changes an entry. -/
def modify (id : EntryId) (f : Entry K V → Entry K V) (c : Cache K V) : Cache K V :=
  c.change fun table entries => (table, entries.modify id f)

/-- Makes a new value. -/
def allocate (content : V) (c : Cache K V) : Cache K V × Value V :=
  ({ c with nextValue := c.nextValue + 1 }, { id := c.nextValue, content })

/-- Records a use of an entry and moves its node to the most recently used end. -/
def use (node : EntryNode K) (now : Nat) (c : Cache K V) : Cache K V :=
  c.change fun table entries => (table.touch node, entries.modify node.payload (Entry.stamp now))

/-- Changes the entries and the dirty chain together, and takes a result. -/
def withChain {α : Type} (f : Entries K V → DirtyChain → α × Entries K V × DirtyChain)
    (c : Cache K V) : Cache K V × α :=
  match c with
  | { table, entries, chain, clock, pendingTimeout, loadLimit, loading, nullPolicy, idlePolicy,
      counters, nextValue, log } =>
    let (a, entries, chain) := f entries chain
    ({ table, entries, chain, clock, pendingTimeout, loadLimit, loading, nullPolicy, idlePolicy,
       counters, nextValue, log }, a)

/-- Appends an entry to the dirty chain. -/
def linkBack (id : EntryId) (c : Cache K V) : Cache K V :=
  (c.withChain fun entries chain => ((), chain.pushBack id entries)).1

/-- Marks an entry dirty with a value, and appends it to the dirty chain unless it was a
    member. -/
def makeDirty (id : EntryId) (v : Value V) (c : Cache K V) : Cache K V :=
  -- A member of an open batch in direct mode counts as one: the change is folded into the batch.
  let member := c.entries[id]?.any Entry.inChain
  let c := c.modify id (Entry.enlist v)
  if member then c else c.linkBack id

/-- Moves the clock forward. -/
def advanceClock (seconds : Nat) (c : Cache K V) : Cache K V :=
  { c with clock := c.clock.advance seconds }

/-- Puts the clock at a tick. -/
def setClock (tick : Nat) (c : Cache K V) : Cache K V :=
  { c with clock := c.clock.set tick }

/-- Sets how many seconds a caller waits for another caller's load. -/
def setTimeout (seconds : Nat) (c : Cache K V) : Cache K V :=
  { c with pendingTimeout := seconds }

/-- Sets the greatest number of loads in flight, where zero lifts the limit. -/
def setLoadLimit (limit : Nat) (c : Cache K V) : Cache K V :=
  { c with loadLimit := limit }

/-- Removes every key. Changes that are not written back stay in the dirty chain. -/
def clear (held : Held) (c : Cache K V) : Cache K V :=
  let (table, removed) := c.table.clear
  let c := { c with table }
  let c := removed.foldl (fun c node => c.modify node.payload (Entry.retire held)) c
  c.emit (.cleared removed.length)

end Cache

end ReadThrough
