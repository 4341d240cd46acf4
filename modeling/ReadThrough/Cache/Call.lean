import ReadThrough.Cache.Eviction
import ReadThrough.Cache.Request

/-! # Calls

  The operations on a single key, one critical section at a time.

  - **Stage**: where a call stands. A call is either about to enter a critical section, or it waits
    for another caller's load, or its callback is running, or it is done.
  - **Call.advance**: one critical section. A call that waits looks whether it still has to.
  - **Call.resume**: the end of the callback.
  - **Call.expire**: the end of a wait whose time is up.

  Calls of different callers may advance in any order. While a callback runs no critical section
  is held, so any other calls may run meanwhile.
-/

namespace ReadThrough

variable {K V : Type}

/-! ## Stages -/

/-- Where a call stands. -/
inductive Stage (K V : Type) where
  /-- It is about to look its key up. -/
  | lookup
  /-- It is about to look at the entry that it found at tick `now`. -/
  | inspect (node : EntryNode K) (now : Nat)
  /-- It found no entry and is about to reserve a load. -/
  | reserve (now : Nat)
  /-- It found too many loads in flight and is about to give its own back. -/
  | refuse (limit : Nat)
  /-- It is about to insert an entry. -/
  | insert (now : Nat)
  /-- It has reserved a load in vain and is about to give it back. -/
  | giveBack (error? : Option CacheError)
  /-- It waits for the load or the update that was started at an epoch of the entry. -/
  | parked (node : EntryNode K) (epoch : Nat)
  /-- Its callback is running for the entry, which it made pending at an epoch. The state before
      comes back if nothing comes of it. -/
  | running (node : EntryNode K) (epoch : Nat) (prior : ValueState V)
  /-- Its load is over and it is about to give the reservation back. -/
  | release (node : EntryNode K) (now : Nat) (outcome : Outcome V)
  /-- It is about to record a use of the entry. -/
  | touch (node : EntryNode K) (now : Nat) (outcome : Outcome V)
  /-- It has removed the node and is about to retire the entry. -/
  | retire (node : EntryNode K)
  | done (outcome : Outcome V)

/-- A call in progress. -/
structure Call (K V : Type) where
  request : Request K V
  /-- How many seconds it waits for another caller's load. -/
  timeout : Nat
  /-- The value that it brings along. -/
  own? : Option (Value V)
  stage : Stage K V

/-! ## Loads in flight -/

namespace Cache

/-- Whether as many loads are in flight as the limit allows. -/
def atLoadLimit (c : Cache K V) : Bool :=
  c.loadLimit != 0 && c.loadLimit ≤ c.loading

/-- Takes part in the loads in flight. -/
def reserveLoad (c : Cache K V) : Cache K V :=
  { c with loading := c.loading + 1 }

/-- Takes part in the loads in flight no more. -/
def releaseLoad (c : Cache K V) : Cache K V :=
  { c with loading := c.loading - 1 }

end Cache

/-! ## Calls -/

namespace Call

/-- Starts a call. -/
def start (r : Request K V) (c : Cache K V) : Cache K V × Call K V :=
  match r with
  | .put _ content =>
    let (c, v) := c.allocate content
    (c, { request := r, timeout := c.pendingTimeout, own? := some v, stage := .lookup })
  | _ => (c, { request := r, timeout := c.pendingTimeout, own? := none, stage := .lookup })

/-- The call at another stage. -/
def goTo (call : Call K V) (s : Stage K V) : Call K V :=
  { call with stage := s }

/-- Whether the call cannot go on by itself. -/
def isHalted (call : Call K V) : Bool :=
  match call.stage with
  | .parked .. => true
  | .running .. => true
  | .done _ => true
  | _ => false

/-- The entry that a call refers to. -/
def node? (call : Call K V) : Option (EntryNode K) :=
  match call.stage with
  | .inspect node _ => some node
  | .parked node _ => some node
  | .running node _ _ => some node
  | .release node _ _ => some node
  | .touch node _ _ => some node
  | .retire node => some node
  | _ => none

/-- The values that a call holds. A call that is done has dropped all but its outcome. -/
def holdings (call : Call K V) : List (Value V) :=
  match call.stage with
  | .running _ _ prior => call.own?.toList ++ prior.kept.toList
  | .release _ _ outcome => call.own?.toList ++ outcome.value?.toList
  | .touch _ _ outcome => call.own?.toList ++ outcome.value?.toList
  | .done outcome => outcome.value?.toList
  | _ => call.own?.toList

/-- The value that a running callback is given: the one before the update. -/
def current? (call : Call K V) : Option (Value V) :=
  match call.stage with
  | .running _ _ prior => prior.kept
  | _ => none

/-! ## Lookup and insertion -/

/-- Looks the key up. -/
def lookup [DecidableEq K] (r : Request K V) (c : Cache K V) : Cache K V × Stage K V :=
  match r with
  | .invalidate key =>
    match c.table.remove key with
    | (_, none) => (c, .done (.value none))
    | (table, some node) => ({ c with table }, .retire node)
  | _ =>
    match c.table.get? r.key with
    | some node => (c, .inspect node c.now)
    | none =>
      match r with
      | .get _ => (c.countMiss.emit .miss, .done (.value none))
      | .mark _ => (c, .done (.marked false))
      | .load .. => (c, .reserve c.now)
      | _ => (c, .insert c.now)

/-- Reserves a load for an absent key. -/
def reserve (now : Nat) (c : Cache K V) : Cache K V × Stage K V :=
  (c.reserveLoad, if c.atLoadLimit then .refuse c.loadLimit else .insert now)

/-- Gives the reservation back that was one too many. -/
def refuse (limit : Nat) (c : Cache K V) : Cache K V × Stage K V :=
  let c := c.releaseLoad.count fun k => { k with overloads := k.overloads + 1 }
  (c.emit (.loadRejected limit), .done (.failed (.overload limit)))

/-- Reports that a loader is about to run for a pending entry. -/
def startLoader (node : EntryNode K) (epoch : Nat) (c : Cache K V) : Cache K V × Stage K V :=
  (c.countMiss.emit (.loading node.hash epoch), .running node epoch .unassigned)

/-- The state in which a request inserts the entry of an absent key. -/
def firstState (call : Call K V) : ValueState V :=
  match call.own? with
  | some v => .ready v
  | none => .pending

/-- Inserts an entry for an absent key. -/
def insert [DecidableEq K] (call : Call K V) (now : Nat) (c : Cache K V) :
    Cache K V × Stage K V :=
  let key := call.request.key
  let (c, entrance, evictions) := c.consult fun table entries =>
    let id := entries.size
    (table.getOrInsert Cache.lastUseIn Cache.evictor key (.ok id) (entries, 0)).map
      fun (entrance, entries, evictions) => ((entrance, evictions), entries)
  let c := c.countEvictions evictions
  match entrance with
  | .vacant node =>
    let c := c.change fun table entries =>
      (table, entries.push (Entry.new key call.firstState now))
    match call.request with
    | .load .. => startLoader node 1 c
    | .put .. => (c, .done (.value call.own?))
    | _ => (c, .running node 1 .unassigned)
  -- Another caller has inserted the key since it was looked up.
  | .occupied .. =>
    match call.request with
    | .load .. => (c, .giveBack none)
    | _ => (c, .lookup)
  | .full capacity =>
    match call.request with
    | .load .. => (c, .giveBack (some (.capacityExhausted capacity)))
    | _ => (c, .done (.failed (.capacityExhausted capacity)))
  | .panicked reason =>
    (c, .done (.panicked reason))

/-- Gives a reservation back that came to nothing. -/
def giveBack (error? : Option CacheError) (c : Cache K V) : Cache K V × Stage K V :=
  match error? with
  | none => (c.releaseLoad, .lookup)
  | some error => (c.releaseLoad, .done (.failed error))

/-! ## Looking at an entry -/

/-- Gives a wait up. -/
def giveUp (seconds : Nat) (c : Cache K V) : Cache K V × Stage K V :=
  let c := c.count fun k => { k with loadTimeouts := k.loadTimeouts + 1 }
  (c.emit (.waitedOut seconds), .done (.failed (.loadTimeout seconds)))

/-- Waits for the operation in flight on an entry; a call that has no time gives up at once. -/
def park (call : Call K V) (node : EntryNode K) (e : Entry K V) (c : Cache K V) :
    Cache K V × Stage K V :=
  if call.timeout = 0 then giveUp 0 c else (c, .parked node e.epoch)

/-- Looks at an entry for its value. -/
def inspectGet (held : Held) (node : EntryNode K) (e : Entry K V) (c : Cache K V) :
    Cache K V × Stage K V :=
  let c := c.modify node.payload (Entry.resolve held)
  match e.value.peek held with
  | some v => (c.countHit, .touch node c.now (.value (some v)))
  | none => (c.countMiss.emit (.missUnloaded node.hash), .done (.value none))

/-- Looks at an entry for a usable value, and makes the entry pending if there is none. -/
def inspectLoad (held : Held) (call : Call K V) (expire : Nat) (acceptEmpty : Bool)
    (node : EntryNode K) (now : Nat) (e : Entry K V) (c : Cache K V) : Cache K V × Stage K V :=
  -- The node has left the table since it was looked up.
  if e.removed then (c, .lookup)
  else
    let finding := e.find held c.nullPolicy expire acceptEmpty now
    let c := c.modify node.payload (Entry.resolve held)
    match finding with
    | .hit v? => (c.countHit, .touch node now (.value v?))
    | .pending => park call node e c
    | .load =>
      -- The reservation is taken first and given back in a step of its own if it is one too many.
      let limited := c.atLoadLimit
      let c := c.reserveLoad
      if limited then (c, .refuse c.loadLimit)
      else startLoader node (e.epoch + 1) (c.modify node.payload Entry.begin)

/-- Makes an entry pending for an update. -/
def inspectUpdate (held : Held) (call : Call K V) (node : EntryNode K) (e : Entry K V)
    (c : Cache K V) : Cache K V × Stage K V :=
  if e.removed then (c, .lookup)
  else if e.value.isPending then park call node e c
  else (c.modify node.payload Entry.begin, .running node (e.epoch + 1) (e.value.resolve held))

/-- Looks at an entry for its value, and puts the call's own value in place if there is none. -/
def inspectPut (held : Held) (call : Call K V) (node : EntryNode K) (now : Nat) (e : Entry K V)
    (c : Cache K V) : Cache K V × Stage K V :=
  if e.removed then (c, .lookup)
  else if e.value.isPending then park call node e c
  else
    let c := c.modify node.payload (Entry.resolve held)
    match e.value.peek held, call.own? with
    | some v, _ => (c, .touch node now (.value (some v)))
    | none, some v =>
      (c.modify node.payload (Entry.install (.ready v) now), .touch node now (.value (some v)))
    | none, none => (c, .touch node now (.value none))

/-- Marks an entry dirty if it has a value. -/
def inspectMark (held : Held) (node : EntryNode K) (e : Entry K V) (c : Cache K V) :
    Cache K V × Stage K V :=
  let c := c.modify node.payload (Entry.resolve held)
  match e.value.peek held with
  | none => (c, .done (.marked false))
  | some v => (c.makeDirty node.payload v, .touch node c.now (.marked true))

/-- Looks at the entry that was found at tick `now`. -/
def inspect (held : Held) (call : Call K V) (node : EntryNode K) (now : Nat) (c : Cache K V) :
    Cache K V × Stage K V :=
  match c.entries[node.payload]? with
  | none => (c, .done (.value none))
  | some e =>
    match call.request with
    | .get _ => inspectGet held node e c
    | .load _ expire acceptEmpty => inspectLoad held call expire acceptEmpty node now e c
    | .update _ => inspectUpdate held call node e c
    | .put .. => inspectPut held call node now e c
    | .mark _ => inspectMark held node e c
    | .invalidate _ => (c, .done (.value none))

/-- Looks whether the operation that the call waits for is over. A load that waited for a load that
    failed fails with the same error; other calls start again. -/
def wake (call : Call K V) (node : EntryNode K) (epoch : Nat) (c : Cache K V) :
    Cache K V × Stage K V :=
  match c.entries[node.payload]? with
  | none => (c, .lookup)
  | some e =>
    if e.isPendingAt epoch then (c, .parked node epoch)
    else
      -- The failure of an earlier or a later load is none of this call's business.
      match call.request, e.failureAt epoch with
      | .load .., some error => (c, .done (.failed error))
      | _, _ => (c, .lookup)

/-! ## After the callback -/

/-- Gives the reservation of a load back that is over. -/
def release (node : EntryNode K) (now : Nat) (outcome : Outcome V) (c : Cache K V) :
    Cache K V × Stage K V :=
  let c := c.releaseLoad
  match outcome with
  | .value v? =>
    let c := c.count fun k => { k with loads := k.loads + 1 }
    (c.emit (.loaded node.hash v?.isNone), .touch node now outcome)
  | .failed error =>
    let c := c.count fun k => { k with loadFailures := k.loadFailures + 1 }
    (c.emit (.loadFailed node.hash error), .done outcome)
  | _ => (c, .done outcome)

/-- Retires the entry of a node that was removed by name. -/
def retire (held : Held) (node : EntryNode K) (c : Cache K V) : Cache K V × Stage K V :=
  let v? := c.peek held node.payload
  let c := c.modify node.payload (Entry.retire held)
  (c.emit (.invalidated node.hash), .done (.value v?))

/-! ## Steps -/

/-- One critical section of a call. -/
def advance [DecidableEq K] (held : Held) (c : Cache K V) (call : Call K V) :
    Cache K V × Call K V :=
  let (c, stage) := match call.stage with
    | .lookup => lookup call.request c
    | .inspect node now => inspect held call node now c
    | .reserve now => reserve now c
    | .refuse limit => refuse limit c
    | .insert now => call.insert now c
    | .giveBack error? => giveBack error? c
    | .parked node epoch => wake call node epoch c
    | .running node epoch prior => (c, .running node epoch prior)
    | .release node now outcome => release node now outcome c
    | .touch node now outcome => (c.use node now, .done outcome)
    | .retire node => retire held node c
    | .done outcome => (c, .done outcome)
  (c, call.goTo stage)

/-- The end of a loader. A loader that panics leaves the entry without a value. -/
def settleLoad (node : EntryNode K) (epoch : Nat) (prior : ValueState V) (r : Return V)
    (c : Cache K V) : Cache K V × Stage K V :=
  let now := c.now
  match r with
  | .value content =>
    let (c, v) := c.allocate content
    (c.modify node.payload (Entry.install (.ready v) now), .release node now (.value (some v)))
  | .empty =>
    (c.modify node.payload (Entry.install .missing now), .release node now (.value none))
  | .fail reason =>
    (c.modify node.payload (Entry.fail epoch (.loader reason)),
      .release node now (.failed (.loader reason)))
  -- The load has to be given back even so.
  | .panic reason =>
    (c.modify node.payload (Entry.restore epoch prior), .release node now (.panicked reason))

/-- The end of an updater. An updater that does not return a value leaves the entry as it was. -/
def settleUpdate (node : EntryNode K) (epoch : Nat) (prior : ValueState V) (r : Return V)
    (c : Cache K V) : Cache K V × Stage K V :=
  match r with
  | .value content =>
    let now := c.now
    let (c, v) := c.allocate content
    let c := c.modify node.payload (Entry.install (.dirty v) now)
    (c.makeDirty node.payload v, .touch node now (.value (some v)))
  | .empty => (c.modify node.payload (Entry.restore epoch prior), .done (.value none))
  | .fail reason =>
    let c := c.modify node.payload (Entry.restore epoch prior)
    (c.emit (.updateFailed node.hash (.updater reason)), .done (.failed (.updater reason)))
  | .panic reason =>
    (c.modify node.payload (Entry.restore epoch prior), .done (.panicked reason))

/-- The end of the callback of a call. -/
def resume (r : Return V) (c : Cache K V) (call : Call K V) : Cache K V × Call K V :=
  match call.stage with
  | .running node epoch prior =>
    let (c, stage) := match call.request with
      | .load .. => settleLoad node epoch prior r c
      | _ => settleUpdate node epoch prior r c
    (c, call.goTo stage)
  | _ => (c, call)

/-- The end of a wait whose time is up. A call whose wait is over anyway goes on. -/
def expire (c : Cache K V) (call : Call K V) : Cache K V × Call K V :=
  match call.stage with
  | .parked node epoch =>
    let (c, stage) := match wake call node epoch c with
      | (c, .parked ..) => giveUp call.timeout c
      | r => r
    (c, call.goTo stage)
  | _ => (c, call)

end Call

end ReadThrough
