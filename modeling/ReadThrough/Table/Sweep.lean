import ReadThrough.Table.Basic

/-! # Walks From the Least Recently Used End

  Sweeping, trimming and insertion at capacity are one walk along the recency list, which asks a
  judge about one node after the other.

  - **Verdict**: what the judge says about a node. A judge has a memory of its own and may panic, in
    which case everything stays as it is at that moment.
  - **walk**: the walk itself. It reads the neighbour of a node before the judge is asked, so that
    it goes on behind a node that is evicted.
  - **sweep**, **trim**, **getOrInsert**: the operations. A list that turns out not to match the
    table is rebuilt, by the ticks that the memory of the judge knows.
-/

namespace ReadThrough.Table

variable {K P σ : Type}

/-! ## Judges -/

/-- What is to become of a node. -/
inductive Verdict where
  /-- The node stays and the walk goes on. -/
  | keep
  /-- The node is removed and the walk goes on. -/
  | evict
  /-- The node stays and the walk ends. -/
  | stop
  /-- The judge panicked. -/
  | panic (reason : String)
  deriving DecidableEq, Repr

/-- Decides about nodes, with a memory of type `σ`. -/
abbrev Judge (K P σ : Type) := Node K P → σ → Verdict × σ

/-- The judge that evicts what satisfies a predicate. -/
def Judge.evicting (evict : Node K P → Bool) : Judge K P Unit :=
  fun node _ => (if evict node then .evict else .keep, ())

/-! ## The walk -/

/-- A walk in progress. -/
structure Walk (K P : Type) where
  buckets : Buckets K P
  recency : RecencyList
  /-- How many nodes may still be removed, if there is a limit. -/
  quota : Option Nat
  /-- The nodes removed so far, the latest one first. -/
  removed : List (Node K P) := []
  /-- How many nodes were met and left in place. -/
  visited : Nat := 0
  /-- Whether a slot was met that does not hold the node it is linked for. -/
  dangling : Bool := false

/-- How a walk ends. -/
inductive Ending where
  /-- It reached the most recently used end. -/
  | atFront
  /-- It removed as many nodes as it may. -/
  | atQuota
  /-- The links lead nowhere, or around in a circle. -/
  | broken
  /-- The judge ended it. -/
  | stopped
  /-- The judge panicked. -/
  | panicked (reason : String)
  deriving DecidableEq, Repr

namespace Walk

/-- Notes that the links do not match the table. -/
def dangle (w : Walk K P) : Walk K P :=
  { w with dangling := true }

/-- Notes a node that was left in place. -/
def pass (w : Walk K P) : Walk K P :=
  { w with visited := w.visited + 1 }

/-- Removes a node. -/
def evict (w : Walk K P) (node : Node K P) : Walk K P :=
  match w with
  | { buckets, recency, quota, removed, visited, dangling } =>
    { buckets := (buckets.removeNode node).1
      recency := recency.unlink node.slot node.generation
      quota := quota.map (· - 1)
      removed := node :: removed
      visited, dangling }

/-- Walks from slot `current?` towards the most recently used end, through at most `fuel` slots,
    with a judge whose memory is `m`. -/
def run (judge : Judge K P σ) : Nat → Option Nat → σ → Walk K P → Walk K P × σ × Ending
  | fuel, current?, m, w =>
    if current? = some RecencyList.front then (w, m, .atFront)
    else if w.quota = some 0 then (w, m, .atQuota)
    else
      match fuel, current? with
      | 0, _ => (w.dangle, m, .broken)
      | _, none => (w.dangle, m, .broken)
      | fuel + 1, some slot =>
        -- Read before the judge is asked: a node that is evicted loses its links.
        let before? := w.recency.prev slot
        match w.buckets.node? slot with
        | none => run judge fuel before? m w.dangle
        | some node =>
          -- A slot may still be linked for a node that has left it.
          if w.recency.isLinked slot node.generation then
            match judge node m with
            | (.keep, m) => run judge fuel before? m w.pass
            | (.evict, m) => run judge fuel before? m (w.evict node)
            | (.stop, m) => (w.pass, m, .stopped)
            | (.panic reason, m) => (w, m, .panicked reason)
          else run judge fuel before? m w.dangle

end Walk

/-- What a walk brought about. -/
structure Swept (K P σ : Type) where
  table : Table K P
  /-- The memory of the judge afterwards. -/
  memory : σ
  /-- The removed nodes in the order of their removal. -/
  removed : List (Node K P)
  /-- Whether the list was found to match the table. Only a walk that reaches the most recently
      used end can tell that a node of the table is missing. -/
  consistent : Bool
  /-- The reason of a panic of the judge. -/
  panic? : Option String
  events : List Event

/-- The reason of the panic that ended a walk. -/
def Ending.panic? : Ending → Option String
  | .panicked reason => some reason
  | _ => none

/-- Walks the list from the least recently used end, removing at most `quota` nodes. -/
def walk (judge : Judge K P σ) (quota : Option Nat) (memory : σ) (t : Table K P) : Swept K P σ :=
  match t with
  | { hashOf, buckets, recency, maxCapacity, repairs } =>
    let fuel := recency.links.size
    let last? := recency.prev RecencyList.back
    -- The list has no more slots than links, so only a circle uses the fuel up.
    let (w, memory, ending) := Walk.run judge fuel last? memory { buckets, recency, quota }
    let consistent := !w.dangling && (ending != .atFront || w.visited == w.buckets.size)
    let events := if ending.panic?.isSome || consistent then []
      else [.listMismatch w.buckets.size w.recency.size w.visited]
    { table := { hashOf, buckets := w.buckets, recency := w.recency, maxCapacity, repairs }
      memory
      removed := w.removed.reverse
      consistent
      panic? := ending.panic?
      events }

/-! ## Operations -/

/-- What a sweep or a trim gives back. -/
structure Removal (K P σ : Type) where
  /-- The memory of the judge afterwards. -/
  memory : σ
  /-- The removed nodes in the order of their removal. -/
  removed : List (Node K P)
  /-- The reason of a panic of the judge. -/
  panic? : Option String := none

/-- Asks the judge about every node from the least recently used end on, until the judge stops. -/
def sweep (lastUse : σ → P → Nat) (judge : Judge K P σ) (memory : σ) (t : Table K P) :
    Answer K P (Removal K P σ) :=
  let s := t.walk judge none memory
  let removal := { memory := s.memory, removed := s.removed, panic? := s.panic? }
  if s.panic?.isSome || s.consistent then
    { table := s.table, value := removal, events := s.events }
  else
    let r := s.table.relink (lastUse s.memory)
    { table := r.table, value := removal, events := s.events ++ r.events }

/-- Removes up to `count` nodes from the least recently used end, skipping those that the judge
    keeps. A walk that came to an end too early along a list that does not match the table is
    resumed once along the rebuilt list. -/
def trimNodes (lastUse : σ → P → Nat) (judge : Judge K P σ) (count : Nat) (memory : σ)
    (t : Table K P) : Answer K P (Removal K P σ) :=
  let s := t.walk judge (some count) memory
  if s.panic?.isSome || s.consistent || count ≤ s.removed.length then
    { table := s.table
      value := { memory := s.memory, removed := s.removed, panic? := s.panic? }
      events := s.events }
  else
    let r := s.table.relink (lastUse s.memory)
    let s' := r.table.walk judge (some (count - s.removed.length)) s.memory
    { table := s'.table
      value := { memory := s'.memory, removed := s.removed ++ s'.removed, panic? := s'.panic? }
      events := s.events ++ r.events ++ s'.events }

/-- Removes up to `count` nodes from the least recently used end; none at all asks nobody. -/
def trim (lastUse : σ → P → Nat) (judge : Judge K P σ) (count : Nat) (memory : σ) (t : Table K P) :
    Answer K P (Removal K P σ) :=
  if count = 0 then { table := t, value := { memory, removed := [] } }
  else t.trimNodes lastUse judge count memory

/-- What became of a key that was looked up or inserted. -/
inductive Entrance (K P : Type) where
  /-- The key was there already, with this node; the key that was asked for is handed back. -/
  | occupied (node : Node K P) (key : K)
  /-- The key is there now, with this node. -/
  | vacant (node : Node K P)
  /-- There are `capacity` nodes, too few of which can be evicted. -/
  | full (capacity : Nat)
  /-- The judge or the payload panicked. -/
  | panicked (reason : String)

/-- Puts a node for an absent key at the most recently used end, and grows if need be. -/
def insertNew (t : Table K P) (key : K) (payload : P) : Answer K P (Node K P) :=
  match t with
  | { hashOf, buckets, recency, maxCapacity, repairs } =>
    let hash := hashOf key
    let node := buckets.nextNode hash key payload
    let buckets := buckets.insert hash key payload
    let recency := recency.pushFront node.slot node.generation
    if buckets.canGrow then
      let buckets := buckets.grow
      { table := { hashOf, buckets, recency, maxCapacity, repairs }
        value := node
        events := [.grown buckets.heads.size buckets.size] }
    else { table := { hashOf, buckets, recency, maxCapacity, repairs }, value := node }

/-- Makes room for one more node, if the table is full. -/
def makeRoom (lastUse : σ → P → Nat) (judge : Judge K P σ) (memory : σ) (t : Table K P) :
    Answer K P (Removal K P σ) :=
  t.trim lastUse judge (t.size + 1 - t.maxCapacity) memory

/-- The node of a key, which is inserted at the most recently used end if it is absent. A full
    table evicts from the other end first; what was evicted stays so even if that was not
    enough. The payload is made last. -/
def getOrInsert [DecidableEq K] (lastUse : σ → P → Nat) (judge : Judge K P σ) (key : K)
    (payload : Except String P) (memory : σ) (t : Table K P) :
    Answer K P (Entrance K P × σ) :=
  match t.get? key with
  | some node => { table := t, value := (.occupied node key, memory) }
  | none =>
    let r := t.makeRoom lastUse judge memory
    let memory := r.value.memory
    match r.value.panic?, payload with
    | some reason, _ =>
      { table := r.table, value := (.panicked reason, memory), events := r.events }
    | none, payload =>
      let capacity := r.table.maxCapacity
      -- The payload is made only after it is known that there is room for it.
      if capacity ≤ r.table.size then
        { table := r.table
          value := (.full capacity, memory)
          events := r.events ++ [.noRoom capacity] }
      else
        match payload with
        | .error reason =>
          { table := r.table, value := (.panicked reason, memory), events := r.events }
        | .ok payload =>
          let i := r.table.insertNew key payload
          { table := i.table, value := (.vacant i.value, memory), events := r.events ++ i.events }

end ReadThrough.Table
