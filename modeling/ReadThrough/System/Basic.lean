import ReadThrough.Cache.Batch
import ReadThrough.Cache.Call
import ReadThrough.Names

/-! # Systems

  A cache together with everything outside that refers to its entries and values.

  - **System**: the cache, the calls in progress, the scans in progress, the open batches, and the
    entries and values that clients have kept.
  - **held**: which values are held outside the entries. It decides which values that the cache let
    go are still there.
  - **liveValues**: the values that anything in the system still refers to.
-/

namespace ReadThrough

variable {K V : Type}

/-- A scan that has handed an item out and waits for its client. -/
structure Scan (V : Type) where
  /-- The value handed out. -/
  current : Value V
  /-- The entry it came from, and those still to be looked at. -/
  entries : List EntryId

/-- A dirty entry that a batch has handed out, with its value at that time. -/
structure Yield (V : Type) where
  entry : EntryId
  value : Value V

/-- A cache and its clients. -/
structure System (K V : Type) where
  cache : Cache K V
  /-- The calls in progress, in the order in which they started. -/
  calls : List (Call K V) := []
  /-- The scans in progress, the latest one first. -/
  scans : List (Scan V) := []
  /-- The open batches. -/
  batches : Names Batch := []
  /-- The dirty entries that clients have kept. -/
  yields : Names (Yield V) := []
  /-- The values that clients have kept. -/
  handles : Names (Value V) := []

namespace System

/-- A system with a new cache. -/
def new (config : Config) (clock : Clock) (hashOf : K → UInt64) : System K V :=
  { cache := .new config clock hashOf }

/-! ## References -/

/-- Which values are held by handles, kept entries, calls and scans. -/
def heldBy (handles : Names (Value V)) (yields : Names (Yield V)) (calls : List (Call K V))
    (scans : List (Scan V)) : Held := fun id =>
  handles.any (·.2.id == id) || yields.any (·.2.value.id == id) ||
    calls.any (·.holdings.any (·.id == id)) || scans.any (·.current.id == id)

/-- Which values are held outside the entries. -/
@[inline] def held (s : System K V) : Held :=
  heldBy s.handles s.yields s.calls s.scans

/-- The entries that something refers to. -/
def reachable (s : System K V) : List EntryId :=
  s.cache.table.nodes.map Table.Node.payload ++ s.cache.chain.toList s.cache.entries ++
    s.batches.flatMap (·.2.entries.map Prod.fst) ++ s.yields.map (·.2.entry) ++
    s.calls.filterMap (·.node?.map Table.Node.payload) ++ s.scans.flatMap Scan.entries

/-- The values that something refers to, by identity, each once. -/
def liveValues (s : System K V) : List Nat :=
  -- An entry that nothing refers to is gone, and its value with it.
  let inEntries := s.reachable.filterMap fun id => (s.cache.valueOf id).kept
  let outside := s.handles.map (·.2) ++ s.yields.map (·.2.value) ++
    s.calls.flatMap Call.holdings ++ s.scans.map Scan.current
  let ids := (inEntries ++ outside).map Value.id
  (ids.mergeSort fun a b => a ≤ b).eraseReps

/-! ## Steps of calls -/

/-- Changes the cache. -/
def onCache (f : Cache K V → Cache K V) (s : System K V) : System K V :=
  match s with
  | { cache, calls, scans, batches, yields, handles } =>
    { cache := f cache, calls, scans, batches, yields, handles }

/-- Changes the cache and takes a result. -/
def withCache {α : Type} (f : Cache K V → Cache K V × α) (s : System K V) : System K V × α :=
  match s with
  | { cache, calls, scans, batches, yields, handles } =>
    let (cache, a) := f cache
    ({ cache, calls, scans, batches, yields, handles }, a)

/-- Lets a call do something, which may depend on the values that are held outside the entries. -/
def withCall (f : Held → Cache K V → Call K V → Cache K V × Call K V) (i : Nat)
    (s : System K V) : System K V :=
  match s with
  | { cache, calls, scans, batches, yields, handles } =>
    match calls[i]? with
    | none => { cache, calls, scans, batches, yields, handles }
    | some call =>
      let (cache, call) := f (heldBy handles yields calls scans) cache call
      { cache, calls := calls.set i call, scans, batches, yields, handles }

/-- A new call starts. Its place is behind all others. -/
def spawn (r : Request K V) (s : System K V) : System K V :=
  let (s, call) := s.withCache (Call.start r)
  { s with calls := s.calls ++ [call] }

/-- A call takes one step. -/
def advance [DecidableEq K] (i : Nat) (s : System K V) : System K V :=
  s.withCall Call.advance i

/-- The callback of a call ends. -/
def resume (r : Return V) (i : Nat) (s : System K V) : System K V :=
  s.withCall (fun _ => Call.resume r) i

/-- The time of a call that waits is up. -/
def expire (i : Nat) (s : System K V) : System K V :=
  s.withCall (fun _ => Call.expire) i

/-- The outcome of a call that is done. -/
def outcome? (i : Nat) (s : System K V) : Option (Outcome V) :=
  match s.calls[i]?.map Call.stage with
  | some (.done outcome) => some outcome
  | _ => none

/-- A call that is done hands its outcome over; its value may be kept under a name. -/
def collect (i : Nat) (keepAs : Option String) (s : System K V) : System K V :=
  match s.outcome? i with
  | none => s
  | some outcome =>
    { s with
      calls := s.calls.eraseIdx i
      handles := s.handles.keep? keepAs outcome.value? }

/-! ## Calls without interference -/

/-- More steps than a call takes that nobody interferes with. -/
def stepLimit : Nat := 32

/-- A call goes on until it halts, for at most `fuel` steps. -/
def runCall [DecidableEq K] (i : Nat) : Nat → System K V → System K V
  | 0, s => s
  | fuel + 1, s =>
    if s.calls[i]?.all Call.isHalted then s else runCall i fuel (s.advance i)

/-- A call goes on until its callback runs or it is done. A wait is given up: nobody else can end
    it, since nobody else is running. -/
def carryOn [DecidableEq K] (i : Nat) (s : System K V) : System K V :=
  ((s.runCall i stepLimit).expire i).runCall i stepLimit

/-- A new call starts and goes on until its callback runs or it is done. Its place is behind all
    others. -/
def start [DecidableEq K] (r : Request K V) (s : System K V) : System K V :=
  (s.spawn r).carryOn s.calls.length

/-- The callback of a call ends, and the call goes on until it is done. -/
def reply [DecidableEq K] (r : Return V) (i : Nat) (s : System K V) : System K V :=
  (s.resume r i).carryOn i

/-! ## Batches -/

/-- Drains a batch and keeps it under a name. An open batch of that name is forgotten. -/
def drain (name : String) (limit : Nat) (copyOn : Bool) (s : System K V) : System K V :=
  let (s, batch) := s.withCache (Cache.drain limit copyOn)
  -- The entries of the old batch go back only now, so the new one cannot hold them.
  let s := match s.batches.find? name with
    | some old => s.onCache (Cache.dropBatch old)
    | none => s
  { s with batches := s.batches.keep name batch }

/-- Takes the next entry out of a batch; it may be kept under a name. -/
def next (name : String) (keepAs : Option String) (s : System K V) :
    System K V × Option (Yield V) :=
  match s.batches.find? name with
  | none => (s, none)
  | some batch =>
    let (batch, found) := batch.next s.held s.cache
    let yield? := found.map fun (entry, value) => { entry, value }
    ({ s with
       batches := s.batches.keep name batch
       yields := s.yields.keep? keepAs yield? }, yield?)

/-- Finishes a batch; the result is its count. -/
def finish (name : String) (how : Finish) (s : System K V) : System K V × Option Nat :=
  match s.batches.find? name with
  | none => (s, none)
  | some batch =>
    let (s, count) := s.withCache (Cache.finish how batch)
    ({ s with batches := s.batches.forget name }, some count)

/-- Forgets an open batch. -/
def dropBatch (name : String) (s : System K V) : System K V :=
  match s.batches.find? name with
  | none => s
  | some batch =>
    let s := s.onCache (Cache.dropBatch batch)
    { s with batches := s.batches.forget name }

/-! ## Scans -/

/-- A scan that has the given entries left hands out the value of the first of them, if that entry
    has one, and waits for its client. -/
def beginItem (entries : List EntryId) (s : System K V) : System K V :=
  match entries.head?.bind (s.cache.peek s.held) with
  | none => s
  | some current => { s with scans := { current, entries } :: s.scans }

/-- The client is done with the item of the latest scan. -/
def endItem (s : System K V) : System K V :=
  { s with scans := s.scans.tail }

/-! ## Kept things -/

/-- Forgets a kept value. -/
def release (name : String) (s : System K V) : System K V :=
  { s with handles := s.handles.forget name }

/-- Turns a kept entry into its value, which may be kept under a name. -/
def takeYield (name : String) (keepAs : Option String) (s : System K V) :
    System K V × Option (Value V) :=
  let value? := (s.yields.find? name).map Yield.value
  ({ s with
     yields := s.yields.forget name
     handles := s.handles.keep? keepAs value? }, value?)

/-- Forgets all kept entries and values. -/
def releaseAll (s : System K V) : System K V :=
  { s with yields := [], handles := [] }

end System

end ReadThrough
