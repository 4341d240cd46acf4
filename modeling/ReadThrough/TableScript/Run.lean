import ReadThrough.Names
import ReadThrough.Table.Sweep
import ReadThrough.TableScript.Command

/-! # Running Table Scripts

  - **Bench**: the tables, the ticks of all payloads, and the named nodes. A name keeps its node
    also when the node has left its table, and any table may be asked about it.
  - **perform**, **run**: run commands.
  - **Report**: an answer, with what can be seen of the table afterwards.
-/

namespace ReadThrough.TableScript

open Table

/-! ## The bench -/

/-- A payload is known by the place of its tick. -/
abbrev Payload := Nat

/-- A node of a scripted table. -/
abbrev KeyNode := Node Nat Payload

/-- A scripted table. -/
abbrev KeyTable := Table Nat Payload

/-- The ticks of all payloads ever made, or nothing if payloads have no ticks. -/
abbrev Ticks := Option (Array Nat)

/-- The tick of a payload. -/
def Ticks.at (ticks : Ticks) (p : Payload) : Nat :=
  match ticks with
  | none => 0
  | some ticks => ticks.getD p 0

/-- The payload that is made next. -/
def Ticks.next (ticks : Ticks) : Payload :=
  match ticks with
  | none => 0
  | some ticks => ticks.size

/-- The ticks after one more payload was made. -/
def Ticks.push (ticks : Ticks) (tick : Nat) : Ticks :=
  ticks.map fun ticks => Array.push ticks tick

/-- The ticks after that of a payload was set. -/
def Ticks.set (ticks : Ticks) (p : Payload) (tick : Nat) : Ticks :=
  ticks.map fun ticks => ticks.setIfInBounds p tick

/-- What a script works on. -/
structure Bench where
  tables : Array KeyTable
  ticks : Ticks
  names : Names KeyNode := []

/-- The description of a table to be made. -/
structure Plan where
  initial : Nat := 0
  maxCapacity : Nat := unlimited
  loadFactor : Float := 0.75
  hashRule : HashRule := .identity

/-- The table of a plan. -/
def Plan.table (p : Plan) : KeyTable :=
  .empty p.initial p.maxCapacity (.ofFloat p.loadFactor) p.hashRule.hash

/-- A bench with new tables, whose payloads have ticks or not. -/
def Bench.new (plans : List Plan) (timed : Bool) : Bench :=
  { tables := (plans.map Plan.table).toArray
    ticks := if timed then some #[] else none }

/-! ## Single commands -/

/-- How a node is shown. -/
def shown (ticks : Ticks) (node : KeyNode) : Shown :=
  { key := node.key, tick := ticks.at node.payload, hash := node.hash }

/-- The text of a node; a payload is shown as its tick. -/
def describeNode (ticks : Ticks) (node : KeyNode) : String :=
  let payload := if ticks.isNone then "()" else toString (ticks.at node.payload)
  Text.openRecord "Node" [("key", toString node.key), ("payload", payload)]

/-- The judge that asks tests about keys, `stop` first, and remembers the keys it was asked
    about, the latest one first. -/
def judge (stop evict : KeyTest) : Judge Nat Payload (List Nat) := fun node asked =>
  let verdict : Verdict :=
    match stop.run node.key with
    | .error reason => .panic reason
    | .ok true => .stop
    | .ok false =>
      match evict.run node.key with
      | .error reason => .panic reason
      | .ok true => .evict
      | .ok false => .keep
  (verdict, node.key :: asked)

/-- The judge of a test that never stops a walk. -/
def evicting (evict : KeyTest) : Judge Nat Payload (List Nat) :=
  judge (.always false) evict

/-- Looks a key up or inserts it with a new payload. -/
def insert (ticks : Ticks) (t : KeyTable) (key tick : Nat) (evict : KeyTest)
    (payloadPanics : Bool) : Ticks × Table.Answer Nat Payload (Entrance Nat Payload × List Nat) :=
  let payload := if payloadPanics then .error "payload" else .ok ticks.next
  let r := t.getOrInsert (fun _ => ticks.at) (evicting evict) key payload []
  match r.value.1 with
  | .vacant _ => (ticks.push tick, r)
  | _ => (ticks, r)

/-- How many keys of a series were new, present and refused. -/
structure Tally where
  vacant : Nat := 0
  occupied : Nat := 0
  failed : Nat := 0
  deriving DecidableEq, Repr

/-- Inserts keys one after the other, each with the given tick or with itself as its tick; a panic
    ends the series. The events come latest first. -/
def insertAll (tick? : Option Nat) (evict : KeyTest) :
    List Nat → Tally → List Event → Ticks → KeyTable → Ticks × Table.Answer Nat Payload Answer
  | [], n, events, ticks, t =>
    (ticks, { table := t, value := .numbers [n.vacant, n.occupied, n.failed], events })
  | key :: keys, n, events, ticks, t =>
    let (ticks, r) := insert ticks t key (tick?.getD key) evict false
    let events := r.events.reverse ++ events
    match r.value.1 with
    | .vacant _ => insertAll tick? evict keys { n with vacant := n.vacant + 1 } events ticks r.table
    | .occupied .. =>
      insertAll tick? evict keys { n with occupied := n.occupied + 1 } events ticks r.table
    | .full _ => insertAll tick? evict keys { n with failed := n.failed + 1 } events ticks r.table
    | .panicked reason => (ticks, { table := r.table, value := .panicked reason, events })

/-- Removes keys one after the other and counts those that were there. -/
def removeAll (keys : List Nat) (t : KeyTable) : KeyTable × Nat :=
  keys.foldl
    (fun (t, count) key =>
      match t.remove key with
      | (t, some _) => (t, count + 1)
      | (t, none) => (t, count))
    (t, 0)

/-- What a command brings about: bench, answer, the keys that its tests were asked about in order,
    and the events in order. -/
structure Effect where
  bench : Bench
  answer : Answer
  asked : List Nat := []
  events : List Event := []

namespace Bench

/-- Keeps a node under a name, if one is given. -/
def keep (b : Bench) (name? : Option String) (node : KeyNode) : Bench :=
  { b with names := b.names.keep? name? (some node) }

/-- The node that a target stands for. -/
def resolve (b : Bench) (t : KeyTable) : Target → Option KeyNode
  | .named name => b.names.find? name
  | .keyed key => t.get? key

/-- The bench with another table in place. -/
def put (b : Bench) (i : Nat) (t : KeyTable) : Bench :=
  { b with tables := b.tables.setIfInBounds i t }

/-- The number of payloads that a table or a name still reaches. -/
def live (b : Bench) : Nat :=
  if b.ticks.isNone then 0
  else
    let stored := b.tables.toList.flatMap fun t => t.nodes.map Node.payload
    let named := b.names.map fun entry => entry.2.payload
    ((stored ++ named).mergeSort fun p q => p ≤ q).eraseReps.length

/-- What removing nodes brings about. -/
def removal (b : Bench) (i : Nat) (r : Table.Answer Nat Payload (Removal Nat Payload (List Nat))) :
    Effect :=
  { bench := b.put i r.table
    answer := match r.value.panic? with
      | some reason => .panicked reason
      | none => .numbers (r.value.removed.map Node.key)
    asked := r.value.memory.reverse
    events := r.events }

/-- Runs a command that is about a node, which has no answer if there is no such node. -/
def onNode (b : Bench) (t : KeyTable) (target : Target) (f : KeyNode → Bench × Answer) : Effect :=
  match b.resolve t target with
  | none => { bench := b, answer := .nothing }
  | some node =>
    let (bench, answer) := f node
    { bench, answer }

/-- Runs a command for table `t`, which is at place `i`. -/
def perform (b : Bench) (i : Nat) (t : KeyTable) : Command → Effect
  | .insert key tick evict keepAs payloadPanics =>
    let (ticks, r) := insert b.ticks t key tick evict payloadPanics
    let (entrance, asked) := r.value
    let b := { b.put i r.table with ticks }
    let effect (bench : Bench) (answer : Answer) : Effect :=
      { bench, answer, asked := asked.reverse, events := r.events }
    match entrance with
    | .vacant node => effect (b.keep keepAs node) (.inserted (shown ticks node))
    | .occupied node key => effect (b.keep keepAs node) (.present (shown ticks node) key)
    | .full capacity => effect b (.failed (.capacityExhausted capacity))
    | .panicked reason => effect b (.panicked reason)
  | .get key keepAs =>
    b.onNode t (.keyed key) fun node => (b.keep keepAs node, .node (shown b.ticks node))
  | .remove key keepAs =>
    match t.remove key with
    | (_, none) => { bench := b, answer := .nothing }
    | (t, some node) =>
      { bench := (b.put i t).keep keepAs node
        answer := .node (shown b.ticks node) }
  | .removeNode target =>
    b.onNode t target fun node =>
      let (t, removed) := t.removeNode node
      (b.put i t, .flag removed)
  | .touch target =>
    b.onNode t target fun node => (b.put i (t.touch node), .flag (t.isLinked node))
  | .unlink target =>
    b.onNode t target fun node => (b.put i (t.unlink node), .flag (t.isLinked node))
  | .stamp target tick =>
    b.onNode t target fun node => ({ b with ticks := b.ticks.set node.payload tick }, .nothing)
  | .inspect target =>
    b.onNode t target fun node =>
      (b, .described (shown b.ticks node) (describeNode b.ticks node))
  | .forget name =>
    { bench := { b with names := b.names.forget name }
      answer := .flag (b.names.find? name).isSome }
  | .trim count evict => b.removal i (t.trim (fun _ => b.ticks.at) (evicting evict) count [])
  | .sweep stop evict => b.removal i (t.sweep (fun _ => b.ticks.at) (judge stop evict) [])
  | .insertAll keys tick? evict =>
    let (ticks, r) := insertAll tick? evict keys.keys {} [] b.ticks t
    { bench := { b.put i r.table with ticks }, answer := r.value, events := r.events.reverse }
  | .removeAll keys =>
    let (t, count) := removeAll keys.keys t
    { bench := b.put i t, answer := .count count }
  | .getAll keys =>
    { bench := b, answer := .count (keys.keys.countP fun key => (t.get? key).isSome) }
  | .relink =>
    let r := t.relink b.ticks.at
    { bench := b.put i r.table, answer := .count r.value, events := r.events }
  | .resize =>
    let r := t.resize
    { bench := b.put i r.table, answer := .flag r.value, events := r.events }
  | .pinch =>
    let r := t.pinch
    { bench := b.put i r.table, answer := .flag r.value, events := r.events }
  | .isEmpty => { bench := b, answer := .flag t.isEmpty }
  | .clear =>
    let (t, removed) := t.clear
    { bench := b.put i t, answer := .numbers (removed.map Node.key) }
  | .byRecency => { bench := b, answer := .numbers (t.byRecency.map Node.key) }
  | .bySlot => { bench := b, answer := .numbers (t.nodes.map Node.key) }
  | .maxCapacity => { bench := b, answer := .count t.maxCapacity }
  | .setMaxCapacity n =>
    let t := t.setMaxCapacity n
    { bench := b.put i t, answer := .count t.maxCapacity }
  | .hash key => { bench := b, answer := .count (t.hashOf key).toNat }
  | .describe => { bench := b, answer := .text t.describe }
  | .live => { bench := b, answer := .count b.live }

/-! ## Scripts -/

/-- An answer, with what can be seen of the table afterwards. -/
structure Report where
  answer : Answer
  size : Nat
  capacity : Nat
  repairs : Nat
  /-- The keys that the tests of the command were asked about, in order. -/
  asked : List Nat
  byRecency : List Nat
  events : List Event

/-- Runs a command for table `i` and reports on that table. There is no report on a table that does
    not exist. -/
def step (b : Bench) (i : Nat) (c : Command) : Bench × Option Report :=
  match b.tables[i]? with
  | none => (b, none)
  | some t =>
    let e := b.perform i t c
    let report? := e.bench.tables[i]?.map fun t =>
      { answer := e.answer
        size := t.size
        capacity := t.capacity
        repairs := t.repairs
        asked := e.asked
        byRecency := t.byRecency.map Node.key
        events := e.events }
    (e.bench, report?)

/-- Runs a script of commands for the tables at the given places. -/
def run : List (Nat × Command) → Bench → Bench × List (Option Report)
  | [], b => (b, [])
  | (i, c) :: script, b =>
    let (b, report?) := b.step i c
    let (b, reports) := run script b
    (b, report? :: reports)

/-- Forgets all names. -/
def forgetAll (b : Bench) : Bench :=
  { b with names := [] }

/-- Drops all tables. -/
def dropTables (b : Bench) : Bench :=
  { b with tables := #[] }

end Bench

end ReadThrough.TableScript
