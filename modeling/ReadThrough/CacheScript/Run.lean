import ReadThrough.CacheScript.Command
import ReadThrough.CacheScript.Report
import ReadThrough.Hash
import ReadThrough.Text.Quoted

/-! # Running Cache Scripts

  - **perform**, **performAll**: run commands. All calls of a script run one inside the other, so
    that a call that finds its key pending waits in vain.
  - **close**: what is left at the end of a session.
-/

namespace ReadThrough.CacheScript

/-! ## Calls -/

/-- What is known of a callback that ran. -/
structure Callback where
  key : String
  current : Option (Option String)
  inside : List (Report Answer)

/-- The current value, if the callback of the request is given one. -/
def currentFor (request : Request String String) (current? : Option (Value String)) :
    Option (Option String) :=
  match request with
  | .update _ => some (current?.map Value.content)
  | _ => none

/-- Brings call `i`, which has gone as far as it can, to its end: if its callback is running, the
    commands `inside` are run, then the callback ends. -/
def complete (i : Nat) (inside : Session → Session × List (Report Answer)) (ending : Ending)
    (s : Session) : Session × Option Callback :=
  match s.calls[i]? with
  | none => (s, none)
  | some call =>
    match call.stage with
    | .running node _ _ =>
      let (s, reports) := inside s
      -- The current value is the one from before the commands, whatever they did to the key.
      let s := s.reply (ending.returns (call.current?.map Value.content)) i
      (s, some { key := node.key
                 current := currentFor call.request call.current?
                 inside := reports })
    | _ => (s, none)

/-- The answer of a call from its outcome. -/
def answerOf (request : Request String String) (outcome : Outcome String)
    (callback? : Option Callback) : Answer :=
  match request, outcome with
  | .get _, .value none => .nothing
  | .get _, .value (some v) => .text v.content
  | .invalidate _, .value none => .nothing
  | .invalidate _, .value (some v) => .text v.content
  | .mark _, .marked found => .flag found
  | _, _ =>
    match callback? with
    | none => .outcome outcome none none []
    | some callback => .outcome outcome (some callback.key) callback.current callback.inside

/-- The end of call `i`: its outcome, and the session without it. -/
def collect (i : Nat) (request : Request String String) (callback? : Option Callback)
    (keepAs : Option String) (s : Session) : Session × Answer :=
  match s.outcome? i with
  | none => (s, .nothing)
  | some outcome => (s.collect i keepAs, answerOf request outcome callback?)

/-- Runs a call from its start to its end. -/
def call (request : Request String String) (inside : Session → Session × List (Report Answer))
    (ending : Ending) (keepAs : Option String) (s : Session) : Session × Answer :=
  let i := s.calls.length
  let (s, callback?) := complete i inside ending (s.start request)
  collect i request callback? keepAs s

/-- Callbacks without commands. -/
def noCommands (s : Session) : Session × List (Report Answer) :=
  (s, [])

/-! ## Series of calls -/

/-- Whether a call returned a value. -/
def succeeded : Answer → Bool
  | .outcome (.value _) .. => true
  | _ => false

/-- The key of a number in a series. -/
def seriesKey (n : Nat) : String :=
  "k" ++ toString n

/-- The value that the callbacks of a series return for a number. -/
def seriesValue (n : Nat) : String :=
  "v" ++ toString n

/-- Runs a call for every number of a span and counts those that succeed and those that fail. -/
def callAll (request : String → String → Request String String) (span : Span) (s : Session) :
    Session × Answer :=
  let numbers := (List.range (span.stop - span.first)).map (span.first + ·)
  let (s, succeeded, failed) := numbers.foldl
    (fun (s, ok, failed) n =>
      let value := seriesValue n
      let (s, answer) := call (request (seriesKey n) value) noCommands (.value value) none s
      if succeeded answer then (s, ok + 1, failed) else (s, ok, failed + 1))
    (s, 0, 0)
  (s, .counts [succeeded, failed])

/-! ## Batches -/

/-- The key of an entry. -/
def keyOf (s : Session) (id : EntryId) : String :=
  (s.cache.entries[id]?.map Entry.key).getD ""

/-- Takes up to `count` entries out of a batch. -/
def takeNext (batch : String) (keepAs : Option String) : Nat → Session →
    Session × List (String × String)
  | 0, s => (s, [])
  | count + 1, s =>
    match s.next batch keepAs with
    | (s, none) => (s, [])
    | (s, some y) =>
      let (s, rest) := takeNext batch keepAs count s
      (s, (keyOf s y.entry, y.value.content) :: rest)

/-- The entries that a batch still hands out, with their values. -/
def remaining (s : Session) (b : Batch) : List (String × String) :=
  (b.entries.drop b.consumed).filterMap fun (id, _) =>
    (s.cache.peek s.held id).map fun v => (keyOf s id, v.content)

/-- Lists the dirty chain: everything is drained in direct mode and rolled back. -/
def listChain (s : Session) : Session × List (String × String) :=
  let (s, batch) := s.withCache fun c => c.drain c.entries.size false
  let items := remaining s batch
  (s.onCache fun c => (c.finish .rollback { batch with consumed := batch.size }).1, items)

/-! ## Scans -/

/-- The keys with their values. -/
def items (s : Session) : List (String × String) :=
  (s.cache.scan s.held).map fun (key, v) => (key, v.content)

/-- Goes through entries and runs commands for each that has a value at that moment. -/
def scanNodes (inside : Session → Session × List (Report Answer)) :
    List (EntryNode String) → Session → Session × List (String × String × List (Report Answer))
  | [], s => (s, [])
  | node :: rest, s =>
    match s.cache.peek s.held node.payload with
    | none => scanNodes inside rest s
    | some v =>
      let (s, reports) := inside (s.beginItem ((node :: rest).map Table.Node.payload))
      let (s, items) := scanNodes inside rest s.endItem
      (s, (node.key, v.content, reports) :: items)

/-! ## The order of eviction -/

/-- The first key that is in one list and not at the same place of another one. -/
def departed : List String → List String → Option String
  | [], _ => none
  | key :: _, [] => some key
  | key :: keys, key' :: keys' => if key = key' then departed keys keys' else some key

/-- Evicts up to `fuel` entries one after the other, and tells which key of `before` disappears
    from a scan each time. -/
def probeFor : Nat → List String → Session → Session × List (Option String)
  | 0, _, s => (s, [])
  | fuel + 1, before, s =>
    let (s, evicted) := s.withCache (Cache.trim 1)
    if evicted = 0 then (s, [])
    else
      let after := (s.cache.scan s.held).map Prod.fst
      let (s, rest) := probeFor fuel after s
      (s, departed before after :: rest)

/-- Evicts one entry after the other until none can be evicted. -/
def probe (s : Session) : Session × List (Option String) :=
  probeFor (s.cache.size + 1) ((s.cache.scan s.held).map Prod.fst) s

/-! ## Running commands -/

/-- The text of a dirty entry. -/
def describeYield (key value : String) : String :=
  Text.closedRecord "DirtyEntry" [("key", Text.quoted key), ("value", Text.quoted value)]

/-- A count from a change of the cache. -/
def counting (f : Cache String String → Cache String String × Nat) (s : Session) :
    Session × Answer :=
  let (s, n) := s.withCache f
  (s, .count n)

/-- A change of the cache without an answer. -/
def changing (f : Cache String String → Cache String String) (s : Session) : Session × Answer :=
  (s.onCache f, .nothing)

mutual

/-- Runs a command. -/
def perform : Command → Session → Session × Answer
  | .call request inside ending keepAs, s => call request (performAll inside) ending keepAs s
  | .scanEach inside, s =>
    let (s, items) := scanNodes (performAll inside) s.cache.table.nodes s
    (s, .scanned items)
  | .contains key, s => (s, .flag (s.cache.contains s.held key))
  | .clear, s => changing (Cache.clear s.held) s
  | .scan, s => (s, .pairs (items s))
  | .isEmpty, s => (s, .flag s.cache.table.isEmpty)
  | .capacity, s => (s, .count s.cache.table.capacity)
  | .maxCapacity, s => (s, .count s.cache.table.maxCapacity)
  | .now, s => (s, .count s.cache.now)
  | .pinch, s =>
    let (s, pinched) := s.withCache Cache.pinch
    (s, .flag pinched)
  | .setMaxCapacity n, s => changing (Cache.setMaxCapacity n) s
  | .setTimeout seconds, s => changing (Cache.setTimeout seconds) s
  | .setLoadLimit n, s => changing (Cache.setLoadLimit n) s
  | .trim n, s => counting (Cache.trim n) s
  | .idleTrim cutoff, s => counting (Cache.idleTrim s.held cutoff) s
  | .evictIdle seconds, s => counting (Cache.evictIdle s.held seconds) s
  | .relieve level, s => changing (Cache.relieve level) s
  | .advanceClock seconds, s => changing (Cache.advanceClock seconds) s
  | .setClock tick, s => changing (Cache.setClock tick) s
  | .putAll span, s => callAll .put span s
  | .loadAll span, s => callAll (fun key _ => .load key 0 false) span s
  | .updateAll span, s => callAll (fun key _ => .update key) span s
  | .drain batch limit copyOn, s =>
    let s := s.drain batch limit copyOn
    (s, .drained (((s.batches.find? batch).map Batch.size).getD 0) copyOn)
  | .next batch count keepAs, s =>
    match s.batches.find? batch with
    | none => (s, .noBatch)
    | some _ =>
      let (s, items) := takeNext batch keepAs count s
      (s, .pairs items)
  | .inspectBatch batch, s =>
    match s.batches.find? batch with
    | none => (s, .noBatch)
    | some b => (s, .batch b.size b.consumed b.describe)
  | .finish batch how, s =>
    match s.finish batch how with
    | (s, none) => (s, .noBatch)
    | (s, some n) => (s, .count n)
  | .dropBatch batch, s =>
    match s.batches.find? batch with
    | none => (s, .noBatch)
    | some _ => (s.dropBatch batch, .nothing)
  | .listChain, s =>
    let (s, items) := listChain s
    (s, .pairs items)
  | .inspectYield name, s =>
    match s.yields.find? name with
    | none => (s, .nothing)
    | some y =>
      let key := keyOf s y.entry
      (s, .yield key y.value.content (describeYield key y.value.content))
  | .takeYield name keepAs, s =>
    match s.takeYield name keepAs with
    | (s, none) => (s, .nothing)
    | (s, some v) => (s, .text v.content)
  | .held name, s =>
    match s.handles.find? name with
    | none => (s, .nothing)
    | some v => (s, .text v.content)
  | .release name, s => (s.release name, .flag (s.handles.find? name).isSome)
  | .same name other, s =>
    match s.handles.find? name, s.handles.find? other with
    | some v, some w => (s, .flag (v.id == w.id))
    | _, _ => (s, .nothing)
  | .live, s => (s, .count s.liveValues.length)
  | .describe, s => (s, .text s.cache.describe)
  | .describeStats, s => (s, .text s.cache.stats.describe)
  | .probe, s =>
    let (s, keys) := probe s
    (s, .keys keys)

/-- Runs a script and reports on every command. -/
def performAll : List Command → Session → Session × List (Report Answer)
  | [], s => (s, [])
  | command :: script, s =>
    let (s, answer) := perform command s
    let (s, r) := report answer s
    let (s, reports) := performAll script s
    (s, r :: reports)

end

/-! ## The end of a session -/

/-- What is left at the end of a session. -/
structure Closing where
  scan : List (String × String)
  chain : List (String × String)
  /-- The number of values that the cache still refers to. -/
  live : Nat
  capacity : Nat
  /-- The keys in the order of their eviction. -/
  evicted : List (Option String)
  size : Nat
  dirtyLength : Nat
  /-- The events of forgetting the open batches. -/
  events : List Event

/-- Forgets all open batches, in the order of their names. -/
def dropBatches (s : Session) : Session :=
  s.batches.sorted.foldl (fun s (name, _) => s.dropBatch name) s

/-- Closes a session: open batches, then kept entries and values are forgotten, and the cache is
    looked through. -/
def close (s : Session) : Closing :=
  let s := dropBatches s
  let events := s.cache.log.reverse
  let scan := items s
  let (s, chain) := listChain s
  let s := s.releaseAll
  let live := s.liveValues.length
  let capacity := s.cache.table.capacity
  let (s, evicted) := probe s
  { scan, chain, live, capacity, evicted, events
    size := s.cache.size
    dirtyLength := s.cache.dirtyLength }

/-- A session with a new cache. -/
def start (config : Config) (clock : Clock) : Session :=
  .new config clock Hash.ofText

end ReadThrough.CacheScript
