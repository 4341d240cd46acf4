/-! # The Recency List

  A doubly linked list of slots, from the most to the least recently used one.

  - **Link**: the two neighbours of a slot, and the generation of the node it was linked for. A
    slot without a generation is not linked.
  - **Sentinels**: slot `front` stands before the most recently used slot and slot `back` behind
    the least recently used one. They are never unlinked.
  - **toList**, **toListReverse**: the list as seen from either end. A walk takes no more steps than
    there are slots, so that it ends on damaged links too.
-/

namespace ReadThrough.Table

/-- The links of one slot. -/
structure Link where
  /-- The neighbour that was used more recently. -/
  prev? : Option Nat := none
  /-- The neighbour that was used less recently. -/
  next? : Option Nat := none
  /-- The generation of the node that the slot is linked for. -/
  generation? : Option Nat := none
  deriving DecidableEq, Repr

/-- A list threaded through slots. -/
structure RecencyList where
  /-- The links by slot. -/
  links : Array Link
  /-- The number of linked slots without the sentinels. -/
  size : Nat
  deriving DecidableEq, Repr

namespace RecencyList

/-- The sentinel at the most recently used end. -/
def front : Nat := 0

/-- The sentinel at the least recently used end. -/
def back : Nat := 1

/-- The list that only has its sentinels. -/
def empty : RecencyList :=
  { links := #[{ next? := some back, generation? := some 0 },
               { prev? := some front, generation? := some 0 }]
    size := 0 }

/-! ## Inspection -/

/-- The neighbour of a slot towards the most recently used end. -/
def prev (l : RecencyList) (slot : Nat) : Option Nat :=
  l.links[slot]?.bind Link.prev?

/-- The neighbour of a slot towards the least recently used end. -/
def next (l : RecencyList) (slot : Nat) : Option Nat :=
  l.links[slot]?.bind Link.next?

/-- The generation that a slot is linked for. -/
def generation? (l : RecencyList) (slot : Nat) : Option Nat :=
  l.links[slot]?.bind Link.generation?

/-- Whether a slot is linked for a generation. -/
def isLinked (l : RecencyList) (slot generation : Nat) : Bool :=
  l.generation? slot == some generation

/-- Follows `step` from a slot until `stop`, for at most `fuel` slots. -/
def walk (step : Nat → Option Nat) (stop : Nat) : Nat → Option Nat → List Nat
  | 0, _ => []
  | _, none => []
  | fuel + 1, some slot => if slot = stop then [] else slot :: walk step stop fuel (step slot)

/-- The slots from the most to the least recently used one. -/
def toList (l : RecencyList) : List Nat :=
  walk l.next back l.links.size (l.next front)

/-- The slots from the least to the most recently used one. -/
def toListReverse (l : RecencyList) : List Nat :=
  walk l.prev front l.links.size (l.prev back)

/-! ## Changes -/

/-- Changes the links of a neighbour, if there is one. -/
def modifyAt (links : Array Link) (slot? : Option Nat) (f : Link → Link) : Array Link :=
  match slot? with
  | none => links
  | some slot => links.modify slot f

/-- Takes a slot out of the list and joins its neighbours. -/
def detach (l : RecencyList) (slot : Nat) : RecencyList :=
  match l with
  | { links, size } =>
    match links[slot]? with
    | none => { links, size }
    | some link =>
      -- The neighbours are joined first; then the slot forgets them.
      let links := modifyAt links link.prev? fun p => { p with next? := link.next? }
      let links := modifyAt links link.next? fun n => { n with prev? := link.prev? }
      { links := links.setIfInBounds slot {}, size := size - 1 }

/-- Provides links for every slot up to `slot`. -/
def reserve (l : RecencyList) (slot : Nat) : RecencyList :=
  match l with
  | { links, size } => { links := links ++ Array.replicate (slot + 1 - links.size) {}, size }

/-- Links an unlinked slot at the most recently used end. -/
def attach (l : RecencyList) (slot generation : Nat) : RecencyList :=
  match l with
  | { links, size } =>
    let first? := links[front]?.bind Link.next?
    let links := links.setIfInBounds slot
      { prev? := some front, next? := first?, generation? := some generation }
    let links := modifyAt links first? fun f => { f with prev? := some slot }
    let links := links.modify front fun f => { f with next? := some slot }
    { links, size := size + 1 }

/-- Links a slot at the most recently used end, moving it there if it is linked already. -/
def pushFront (l : RecencyList) (slot generation : Nat) : RecencyList :=
  let l := l.reserve slot
  let l := if (l.generation? slot).isSome then l.detach slot else l
  l.attach slot generation

/-- Moves a slot that is linked for the generation to the most recently used end. -/
def touch (l : RecencyList) (slot generation : Nat) : RecencyList :=
  if l.isLinked slot generation then
    -- The first slot is where it belongs already.
    if l.next front = some slot then l else (l.detach slot).pushFront slot generation
  else l

/-- Takes a slot that is linked for the generation out of the list. -/
def unlink (l : RecencyList) (slot generation : Nat) : RecencyList :=
  if l.isLinked slot generation then l.detach slot else l

/-- Gives the links of all slots from `count` on back; the sentinels stay. -/
def truncate (l : RecencyList) (count : Nat) : RecencyList :=
  match l with
  | { links, size } => { links := links.take (max count 2), size }

/-! ## Laws of the empty list -/

@[simp] theorem toList_empty : empty.toList = [] := rfl

@[simp] theorem toListReverse_empty : empty.toListReverse = [] := rfl

@[simp] theorem size_empty : empty.size = 0 := rfl

end RecencyList

end ReadThrough.Table
