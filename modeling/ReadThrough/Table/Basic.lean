import ReadThrough.Event
import ReadThrough.Table.Buckets
import ReadThrough.Table.RecencyList

/-! # The Table

  A hash table whose nodes are also threaded through a recency list.

  - **Table**: bucket array, recency list, the greatest number of nodes, and how often the list
    had to be rebuilt.
  - **Answer**: what an operation that may report events gives back.
  - **relink**: rebuilds the list from the table, by the ticks at which the payloads were last
    used.
-/

namespace ReadThrough

open Table

/-- A hash table whose nodes are also threaded through a recency list. The keys are hashed by
    `hashOf`. -/
structure Table (K P : Type) where
  hashOf : K → UInt64
  buckets : Buckets K P
  recency : RecencyList
  /-- The number of nodes from which on insertions evict. -/
  maxCapacity : Nat
  /-- How often the recency list was rebuilt. -/
  repairs : Nat

namespace Table

variable {K P : Type}

/-- What an operation gives back: the table afterwards, the result, and the events it reported,
    in order. -/
structure Answer (K P α : Type) where
  table : Table K P
  value : α
  events : List Event := []

/-- The answer with another result. -/
def Answer.map {α β : Type} (f : α → β) (r : Answer K P α) : Answer K P β :=
  { table := r.table, value := f r.value, events := r.events }

/-- The greatest capacity there is. -/
def unlimited : Nat := Nat.pow 2 64 - 1

/-- A table without nodes. It holds `initial` nodes before its buckets grow, and at least one node
    before it evicts. -/
def empty (initial maxCapacity : Nat) (loadFactor : LoadFactor) (hashOf : K → UInt64) :
    Table K P :=
  { hashOf
    buckets := .empty initial loadFactor
    recency := .empty
    maxCapacity := max maxCapacity 1
    repairs := 0 }

/-! ## Inspection -/

/-- The number of nodes. -/
def size (t : Table K P) : Nat :=
  t.buckets.size

/-- Whether there are no nodes. -/
def isEmpty (t : Table K P) : Bool :=
  t.size == 0

/-- The number of nodes that the table holds before its buckets grow. -/
def capacity (t : Table K P) : Nat :=
  t.buckets.threshold

/-- The number of buckets. -/
def bucketCount (t : Table K P) : Nat :=
  t.buckets.heads.size

/-- The node of a key. -/
def get? [DecidableEq K] (t : Table K P) (key : K) : Option (Node K P) :=
  t.buckets.find? (t.hashOf key) key

/-- All nodes, by slot. -/
def nodes (t : Table K P) : List (Node K P) :=
  t.buckets.nodes

/-- The linked nodes, from the most to the least recently used one. -/
def byRecency (t : Table K P) : List (Node K P) :=
  t.recency.toList.filterMap t.buckets.node?

/-- The text of a table. -/
def describe (t : Table K P) : String :=
  Text.openRecord "LruTable"
    [("len", toString t.size), ("buckets", toString t.bucketCount),
     ("max_capacity", toString t.maxCapacity)]

/-! ## Single nodes -/

/-- Removes a node, if it is still in the table, and tells whether it was. -/
def removeNode (t : Table K P) (node : Node K P) : Table K P × Bool :=
  match t with
  | { hashOf, buckets, recency, maxCapacity, repairs } =>
    match buckets.removeNode node with
    | (buckets, false) => ({ hashOf, buckets, recency, maxCapacity, repairs }, false)
    | (buckets, true) =>
      -- The node may have been unlinked before; then the list stays as it is.
      let recency := recency.unlink node.slot node.generation
      ({ hashOf, buckets, recency, maxCapacity, repairs }, true)

/-- Removes the node of a key. -/
def remove [DecidableEq K] (t : Table K P) (key : K) : Table K P × Option (Node K P) :=
  match t.get? key with
  | none => (t, none)
  | some node => ((t.removeNode node).1, some node)

/-- Whether a node is linked in the list. -/
def isLinked (t : Table K P) (node : Node K P) : Bool :=
  t.recency.isLinked node.slot node.generation

/-- Moves a linked node to the most recently used end. -/
def touch (t : Table K P) (node : Node K P) : Table K P :=
  match t with
  | { hashOf, buckets, recency, maxCapacity, repairs } =>
    let recency := recency.touch node.slot node.generation
    { hashOf, buckets, recency, maxCapacity, repairs }

/-- Takes a linked node out of the list and leaves it in the table. -/
def unlink (t : Table K P) (node : Node K P) : Table K P :=
  match t with
  | { hashOf, buckets, recency, maxCapacity, repairs } =>
    let recency := recency.unlink node.slot node.generation
    { hashOf, buckets, recency, maxCapacity, repairs }

/-! ## The table as a whole -/

/-- Sets the greatest number of nodes, which is at least one. Nodes beyond it stay for now. -/
def setMaxCapacity (t : Table K P) (maxCapacity : Nat) : Table K P :=
  { t with maxCapacity := max maxCapacity 1 }

/-- Removes every node; the nodes come by slot. -/
def clear (t : Table K P) : Table K P × List (Node K P) :=
  ({ t with buckets := t.buckets.clear, recency := .empty }, t.nodes)

/-- Doubles the number of buckets until the nodes fit. -/
def resize (t : Table K P) : Answer K P Bool :=
  if t.buckets.canGrow then
    let t := { t with buckets := t.buckets.grow }
    { table := t, value := true, events := [.resized t.bucketCount] }
  else { table := t, value := false }

/-- Gives memory back if there are few nodes. -/
def pinch (t : Table K P) : Answer K P Bool :=
  if t.buckets.canPinch then
    let buckets := t.buckets.pinch
    let slots := buckets.cells.size
    let t := { t with buckets, recency := t.recency.truncate slots }
    { table := t, value := true, events := [.pinched t.bucketCount slots t.size] }
  else { table := t, value := false }

/-- Whether `a` is linked before `b` when the list is rebuilt: the one that was used earlier, and
    of two that were used at the same tick the one with the lower slot. -/
def linkedBefore (a b : Nat × Node K P) : Bool :=
  a.1 < b.1 || (a.1 == b.1 && a.2.slot ≤ b.2.slot)

/-- The recency list that links all nodes by the ticks at which they were last used. -/
def rebuiltList (lastUse : P → Nat) (b : Buckets K P) : RecencyList :=
  -- Each node is put in front of those before, so the one that was used last ends up first.
  let timed := b.nodes.map fun node => (lastUse node.payload, node)
  (timed.mergeSort linkedBefore).foldl (fun l (_, node) => l.pushFront node.slot node.generation)
    .empty

/-- Rebuilds the list from the table; the result is the number of nodes that were linked. -/
def relink (lastUse : P → Nat) (t : Table K P) : Answer K P Nat :=
  let count := t.nodes.length
  { table := { t with recency := rebuiltList lastUse t.buckets, repairs := t.repairs + 1 }
    value := count
    events := [.listRebuilt count] }

end Table

end ReadThrough
