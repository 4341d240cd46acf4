import ReadThrough.Table.LoadFactor
import ReadThrough.Table.Node

/-! # The Bucket Array

  A power of two of hash buckets over a slab of nodes.

  - **Slots**: a node keeps its slot for as long as it is stored. Slots 0 and 1 hold no nodes, since
    they are the sentinels of the recency list.
  - **Vacancies**: slots that became empty are used again, the latest one first.
  - **Chains**: the nodes of a bucket are chained through their slots, the latest one first.
  - **grow**, **pinch**: the number of buckets doubles when there are too many nodes for it and is
    halved again when there are far too few.

  The slab has room for any number of nodes. With slots of 32 bits an insertion would have to give
  up with "slot index space exhausted" once all of them are taken; that is left out.
-/

namespace ReadThrough.Table

/-- One slot of the slab. -/
structure Cell (K P : Type) where
  node? : Option (Node K P) := none
  /-- The next slot of the chain that the node belongs to. -/
  next? : Option Nat := none

/-- Bucket chains over a slab of nodes. -/
structure Buckets (K P : Type) where
  /-- The first slot of each chain. -/
  heads : Array (Option Nat)
  /-- The slab. -/
  cells : Array (Cell K P)
  /-- The empty slots, the one to be used next first. -/
  vacant : List Nat
  /-- The number of nodes. -/
  size : Nat
  /-- The number of nodes above which the array grows. -/
  threshold : Nat
  loadFactor : LoadFactor
  /-- The generation of the next node. -/
  nextGeneration : Nat

namespace Buckets

variable {K P : Type}

/-- The number of slots that hold no nodes, at the beginning of the slab. -/
def reserved : Nat := 2

/-- An array without nodes that holds `capacity` nodes without growing. -/
def empty (capacity : Nat) (loadFactor : LoadFactor) : Buckets K P :=
  let count := loadFactor.bucketsFor capacity
  { heads := Array.replicate count none
    cells := Array.replicate reserved {}
    vacant := []
    size := 0
    threshold := loadFactor.threshold count
    loadFactor := loadFactor
    nextGeneration := 1 }

/-! ## Inspection -/

/-- The bucket of a hash. -/
def index (b : Buckets K P) (hash : UInt64) : Nat :=
  hash.toNat % b.heads.size

/-- The node in a slot. -/
def node? (b : Buckets K P) (slot : Nat) : Option (Node K P) :=
  b.cells[slot]?.bind Cell.node?

/-- The slot that follows a slot in its chain. -/
def next? (cells : Array (Cell K P)) (slot : Nat) : Option Nat :=
  cells[slot]?.bind Cell.next?

/-- All nodes, by slot. -/
def nodes (b : Buckets K P) : List (Node K P) :=
  b.cells.toList.filterMap Cell.node?

/-- The slots of a chain from a slot on, at most `fuel` of them. -/
def chainFrom (cells : Array (Cell K P)) : Nat → Option Nat → List Nat
  | 0, _ => []
  | _, none => []
  | fuel + 1, some slot => slot :: chainFrom cells fuel (next? cells slot)

/-- The first slot of a bucket. -/
def head? (b : Buckets K P) (bucket : Nat) : Option Nat :=
  b.heads[bucket]?.join

/-- The slots of a bucket. -/
def chain (b : Buckets K P) (bucket : Nat) : List Nat :=
  chainFrom b.cells b.cells.size (b.head? bucket)

/-- The node of a key in the chain from a slot on, looking at no more than `fuel` slots. -/
def findFrom [DecidableEq K] (cells : Array (Cell K P)) (hash : UInt64) (key : K) :
    Nat → Option Nat → Option (Node K P)
  | 0, _ => none
  | _, none => none
  | fuel + 1, some slot =>
    match cells[slot]? with
    | none => none
    | some cell =>
      match cell.node? with
      | some node =>
        if node.hash = hash ∧ node.key = key then some node
        else findFrom cells hash key fuel cell.next?
      | none => findFrom cells hash key fuel cell.next?

/-- The node of a key with the given hash. -/
def find? [DecidableEq K] (b : Buckets K P) (hash : UInt64) (key : K) : Option (Node K P) :=
  findFrom b.cells hash key b.cells.size (b.head? (b.index hash))

/-! ## Insertion and removal -/

/-- The slot that the next node is put into. -/
def nextSlot (b : Buckets K P) : Nat :=
  b.vacant.headD b.cells.size

/-- The node that the next insertion makes. -/
def nextNode (b : Buckets K P) (hash : UInt64) (key : K) (payload : P) : Node K P :=
  { hash, slot := b.nextSlot, generation := b.nextGeneration, key, payload }

/-- Puts the next node in front of its chain. The key must be absent. -/
def insert (b : Buckets K P) (hash : UInt64) (key : K) (payload : P) : Buckets K P :=
  let node := b.nextNode hash key payload
  let bucket := b.index hash
  match b with
  | { heads, cells, vacant, size, threshold, loadFactor, nextGeneration } =>
    let cell : Cell K P := { node? := some node, next? := heads[bucket]?.join }
    -- A vacant slot lies within the slab; without one, the slab grows at its end.
    { heads := heads.setIfInBounds bucket (some node.slot)
      cells := if node.slot < cells.size then cells.setIfInBounds node.slot cell
        else cells.push cell
      vacant := vacant.tail
      size := size + 1
      threshold, loadFactor
      nextGeneration := nextGeneration + 1 }

/-- Points the slot at another successor. -/
def setNext (cells : Array (Cell K P)) (slot : Nat) (next? : Option Nat) : Array (Cell K P) :=
  cells.modify slot fun cell => { cell with next? }

/-- The slot in a chain that comes right before the given one. -/
def predecessor? (cells : Array (Cell K P)) (slot : Nat) : Nat → Option Nat → Option Nat
  | 0, _ => none
  | _, none => none
  | fuel + 1, some current =>
    if next? cells current = some slot then some current
    else predecessor? cells slot fuel (next? cells current)

/-- Takes a slot out of the chain of a bucket, and tells whether it was in there. -/
def unchain (b : Buckets K P) (bucket slot : Nat) : Buckets K P × Bool :=
  match b with
  | { heads, cells, vacant, size, threshold, loadFactor, nextGeneration } =>
    let after? := next? cells slot
    let head? := heads[bucket]?.join
    if head? = some slot then
      let heads := heads.setIfInBounds bucket after?
      ({ heads, cells, vacant, size, threshold, loadFactor, nextGeneration }, true)
    else
      match predecessor? cells slot cells.size head? with
      | none => ({ heads, cells, vacant, size, threshold, loadFactor, nextGeneration }, false)
      | some before =>
        let cells := setNext cells before after?
        ({ heads, cells, vacant, size, threshold, loadFactor, nextGeneration }, true)

/-- Empties a slot that is in no chain. -/
def vacate (b : Buckets K P) (slot : Nat) : Buckets K P :=
  match b with
  | { heads, cells, vacant, size, threshold, loadFactor, nextGeneration } =>
    { heads
      cells := cells.setIfInBounds slot {}
      vacant := slot :: vacant
      size := size - 1
      threshold, loadFactor, nextGeneration }

/-- Removes the node in a slot, which is looked for in the chain of the given hash, and tells
    whether it was in there. -/
def removeSlot (b : Buckets K P) (hash : UInt64) (slot : Nat) : Buckets K P × Bool :=
  let bucket := b.index hash
  match b.unchain bucket slot with
  | (b, true) => (b.vacate slot, true)
  | (b, false) => (b, false)

/-- Whether a node is still stored in its slot. -/
def holds (b : Buckets K P) (node : Node K P) : Bool :=
  (b.node? node.slot).any fun current => current.generation == node.generation

/-- Removes a node, if it is still stored, and tells whether it was. -/
def removeNode (b : Buckets K P) (node : Node K P) : Buckets K P × Bool :=
  -- The node may come from another table, whose hash leads to the wrong chain here.
  if b.holds node then b.removeSlot node.hash node.slot else (b, false)

/-- Removes every node. The slots start anew, and the generations go on. -/
def clear (b : Buckets K P) : Buckets K P :=
  { b with
    heads := Array.replicate b.heads.size none
    cells := b.cells.take reserved
    vacant := []
    size := 0 }

/-! ## Growing -/

/-- The two chains that a chain is split into, each with its first and last slot. -/
structure Split where
  lowFirst? : Option Nat := none
  lowLast? : Option Nat := none
  highFirst? : Option Nat := none
  highLast? : Option Nat := none

/-- Points the last slot of a chain at a slot that is appended to it. -/
def linkLast (cells : Array (Cell K P)) (last? : Option Nat) (slot : Nat) : Array (Cell K P) :=
  match last? with
  | none => cells
  | some last => setNext cells last (some slot)

/-- Splits the chain from a slot on by one bit of the hashes, relinking its slots in place; at
    most `fuel` slots are looked at. -/
def splitFrom (bit : Nat) : Nat → Option Nat → Array (Cell K P) → Split →
    Array (Cell K P) × Split
  | 0, _, cells, s => (cells, s)
  | _, none, cells, s => (cells, s)
  | fuel + 1, some slot, cells, s =>
    let after? := next? cells slot
    -- Every slot is cut off from its successor before it is appended to its new chain.
    let high := (cells[slot]?.bind Cell.node?).any fun node => node.hash.toNat / bit % 2 == 1
    let cells := setNext cells slot none
    if high then
      let cells := linkLast cells s.highLast? slot
      splitFrom bit fuel after? cells
        { s with highFirst? := s.highFirst? <|> some slot, highLast? := some slot }
    else
      let cells := linkLast cells s.lowLast? slot
      splitFrom bit fuel after? cells
        { s with lowFirst? := s.lowFirst? <|> some slot, lowLast? := some slot }

/-- Splits the chain of a bucket between that bucket and the one `old` further on. -/
def splitBucket (old : Nat) (b : Buckets K P) (bucket : Nat) : Buckets K P :=
  let head? := b.head? bucket
  match b with
  | { heads, cells, vacant, size, threshold, loadFactor, nextGeneration } =>
    let (cells, s) := splitFrom old cells.size head? cells {}
    let heads := heads.setIfInBounds bucket s.lowFirst?
    let heads := heads.setIfInBounds (bucket + old) s.highFirst?
    { heads, cells, vacant, size, threshold, loadFactor, nextGeneration }

/-- Doubles the number of buckets. -/
def double (b : Buckets K P) : Buckets K P :=
  let old := b.heads.size
  let b := { b with
    heads := b.heads ++ Array.replicate old none
    threshold := b.loadFactor.threshold (old * 2) }
  (List.range old).foldl (splitBucket old) b

/-- Whether there are more nodes than the buckets may hold. -/
def needsGrowth (b : Buckets K P) : Bool :=
  b.threshold < b.size

/-- Doubles the number of buckets until the nodes fit, at most `fuel` times. -/
def growFor : Nat → Buckets K P → Buckets K P
  | 0, b => b
  | fuel + 1, b =>
    if b.needsGrowth && b.heads.size < LoadFactor.mostBuckets then growFor fuel b.double else b

/-- Doubles the number of buckets until the nodes fit. -/
def grow (b : Buckets K P) : Buckets K P :=
  growFor 62 b

/-- Whether growing changes anything. -/
def canGrow (b : Buckets K P) : Bool :=
  b.needsGrowth && b.heads.size < LoadFactor.mostBuckets

/-! ## Shrinking -/

/-- The last slot of the chain from a slot on. -/
def lastFrom (cells : Array (Cell K P)) : Nat → Nat → Nat
  | 0, slot => slot
  | fuel + 1, slot =>
    match next? cells slot with
    | none => slot
    | some after => lastFrom cells fuel after

/-- Appends the chain of the bucket `half` further on to the chain of a bucket. -/
def mergeBucket (half : Nat) (b : Buckets K P) (bucket : Nat) : Buckets K P :=
  match b.head? (bucket + half), b.head? bucket with
  | none, _ => b
  | some high, none => { b with heads := b.heads.setIfInBounds bucket (some high) }
  | some high, some low =>
    -- The nodes of the upper bucket come behind those of the lower one.
    let last := lastFrom b.cells b.cells.size low
    { b with cells := setNext b.cells last (some high) }

/-- Halves the number of buckets. -/
def halve (b : Buckets K P) : Buckets K P :=
  let half := b.heads.size / 2
  let b := (List.range half).foldl (mergeBucket half) b
  { b with
    heads := b.heads.take half
    threshold := b.loadFactor.threshold half }

/-- Whether the nodes would fit eight times over and the number of buckets can be halved. -/
def isSparse (b : Buckets K P) : Bool :=
  LoadFactor.leastBuckets < b.heads.size && b.size < b.loadFactor.threshold b.heads.size / 8

/-- Halves the number of buckets while the nodes are sparse, at most `fuel` times. -/
def shrinkFor : Nat → Buckets K P → Buckets K P
  | 0, b => b
  | fuel + 1, b => if b.isSparse then shrinkFor fuel b.halve else b

/-- The number of slots up to the last one that holds a node, among the first `n`. -/
def occupiedEnd (b : Buckets K P) : Nat → Nat
  | 0 => reserved
  | n + 1 => if (b.node? n).isSome then n + 1 else occupiedEnd b n

/-- Cuts the empty slots at the end of the slab off. -/
def cutSlab (b : Buckets K P) : Buckets K P :=
  let stop := b.occupiedEnd b.cells.size
  { b with
    cells := b.cells.take stop
    vacant := b.vacant.filter (· < stop) }

/-- Halves the number of buckets while the nodes are sparse, and gives the empty slots at the end
    of the slab back. -/
def pinch (b : Buckets K P) : Buckets K P :=
  (shrinkFor b.heads.size.log2 b).cutSlab

/-- Whether pinching gives anything back. -/
def canPinch (b : Buckets K P) : Bool :=
  b.isSparse || b.occupiedEnd b.cells.size < b.cells.size

end Buckets

end ReadThrough.Table
