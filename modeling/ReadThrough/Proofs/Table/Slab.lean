import Mathlib.Data.List.DropRight
import Mathlib.Data.List.ReduceOption
import ReadThrough.Proofs.Table.Operations

/-! # A Table without Hashes

  The plain model that a table refines: a slab of keys and payloads with a stack of vacant slots,
  and a list of the linked items. There are no hashes, buckets, chains, links or generations.

  - **Item**: what is seen of a node.
  - **Slab**: the model, and its operations.
  - **Shown**: an operation on nodes that sees no more of them than their items.
  - **Holding**: handles are used only while their nodes are in the table.
  - **replies**: what a sequence of operations gives back.
-/

namespace ReadThrough.Table

variable {K P : Type}

/-! ## Items -/

/-- A slot with what is in it. -/
structure Item (K P : Type) where
  slot : Nat
  key : K
  payload : P
  deriving DecidableEq, Repr

/-- What is seen of a node. -/
def Node.item (node : Node K P) : Item K P :=
  { slot := node.slot, key := node.key, payload := node.payload }

/-! ## The slab -/

/-- A slab of keys and payloads, some of which are linked. -/
structure Slab (K P : Type) where
  cells : List (Option (K × P))
  /-- The empty slots, the one to be used next first. -/
  vacant : List Nat
  /-- The linked items, the most recently used one first. -/
  linked : List (Item K P)
  maxCapacity : Nat
  repairs : Nat

namespace Slab

/-- A slab without items. The first two slots are never used. -/
def empty (maxCapacity : Nat) : Slab K P :=
  { cells := [none, none], vacant := [], linked := [], maxCapacity := max maxCapacity 1,
    repairs := 0 }

/-- All items, by slot. -/
def items (s : Slab K P) : List (Item K P) :=
  (s.cells.mapIdx fun slot cell => cell.map fun (key, payload) =>
    ({ slot, key, payload } : Item K P)).reduceOption

def size (s : Slab K P) : Nat :=
  s.items.length

/-- Whether every item is linked. -/
def isComplete (s : Slab K P) : Bool :=
  s.linked.length == s.size

/-- The linked items without the one in a slot. -/
def without (s : Slab K P) (slot : Nat) : List (Item K P) :=
  s.linked.filter fun i => i.slot != slot

def isLinked (s : Slab K P) (item : Item K P) : Bool :=
  s.linked.any fun i => i.slot == item.slot

/-- Moves a linked item to the most recently used end. -/
def touch (s : Slab K P) (item : Item K P) : Slab K P :=
  if s.isLinked item then { s with linked := item :: s.without item.slot } else s

/-- Takes an item out of the list and leaves it in the slab. -/
def unlink (s : Slab K P) (item : Item K P) : Slab K P :=
  { s with linked := s.without item.slot }

/-- Takes an item out of the slab. -/
def remove (s : Slab K P) (item : Item K P) : Slab K P :=
  { s with
    cells := s.cells.set item.slot none
    vacant := item.slot :: s.vacant
    linked := s.without item.slot }

/-- The item that is inserted next. -/
def nextItem (s : Slab K P) (key : K) (payload : P) : Item K P :=
  { slot := s.vacant.headD s.cells.length, key, payload }

/-- Puts the next item into the slab and in front of the list. -/
def insert (s : Slab K P) (key : K) (payload : P) : Slab K P :=
  let item := s.nextItem key payload
  { s with
    cells := if item.slot < s.cells.length then s.cells.set item.slot (some (key, payload))
      else s.cells ++ [some (key, payload)]
    vacant := s.vacant.tail
    linked := item :: s.linked }

/-- The order in which items are linked again: by the tick at which they were last used, and by
    their slots if that was at the same tick. -/
def linkedBefore (a b : Nat × Item K P) : Bool :=
  a.1 < b.1 || (a.1 == b.1 && a.2.slot ≤ b.2.slot)

/-- Links all items by the ticks at which they were last used. -/
def relink (lastUse : P → Nat) (s : Slab K P) : Slab K P :=
  let timed := s.items.map fun item => (lastUse item.payload, item)
  { s with
    linked := ((timed.mergeSort linkedBefore).map Prod.snd).reverse
    repairs := s.repairs + 1 }

/-- Cuts the empty slots at the end of the slab off. -/
def pinch (s : Slab K P) : Slab K P :=
  let stop := max 2 (s.cells.rdropWhile Option.isNone).length
  { s with cells := s.cells.take stop, vacant := s.vacant.filter (· < stop) }

/-- Removes every item. -/
def clear (s : Slab K P) : Slab K P :=
  { s with cells := [none, none], vacant := [], linked := [] }

/-! ### Walks -/

/-- What a walk along the linked items has led to. -/
structure Walked (K P : Type) where
  slab : Slab K P
  /-- The items that were removed, in the order of their removal. -/
  removed : List (Item K P)
  /-- The items that the predicate was asked about, the latest one first. -/
  asked : List (Item K P)
  ending : Ending

/-- Asks the predicate about the given items, and removes those that it evicts, up to a quota. -/
def walk (p : Predicate (Item K P)) : List (Item K P) → Option Nat → List (Item K P) →
    Slab K P → Walked K P
  | [], _, asked, s => { slab := s, removed := [], asked, ending := .atFront }
  | item :: rest, quota, asked, s =>
    if quota = some 0 then { slab := s, removed := [], asked, ending := .atQuota }
    else
      match p asked item with
      | .keep => walk p rest quota (item :: asked) s
      | .evict =>
        let w := walk p rest (quota.map (· - 1)) (item :: asked) (s.remove item)
        { w with removed := item :: w.removed }
      | .stop => { slab := s, removed := [], asked := item :: asked, ending := .stopped }
      | .panic reason =>
        { slab := s, removed := [], asked := item :: asked, ending := .panicked reason }

/-- Whether a walk gives no reason to link the items again: it did not come to its end, or it came
    there and all items are linked. -/
def Walked.isConsistent (w : Walked K P) : Bool :=
  w.ending != .atFront || w.slab.isComplete

/-- Walks from the least recently used item on. -/
def walkAll (p : Predicate (Item K P)) (quota : Option Nat) (asked : List (Item K P))
    (s : Slab K P) : Walked K P :=
  walk p s.linked.reverse quota asked s

def sweep (lastUse : List (Item K P) → P → Nat) (p : Predicate (Item K P)) (s : Slab K P) :
    Walked K P :=
  let w := s.walkAll p none []
  if w.ending.panic?.isSome || w.isConsistent then w
  else { w with slab := w.slab.relink (lastUse w.asked) }

/-- Removes up to `count` items. If there are too few linked ones and not all are linked, all of
    them are linked again and the walk is resumed once. -/
def trim (lastUse : List (Item K P) → P → Nat) (p : Predicate (Item K P)) (count : Nat)
    (s : Slab K P) : Walked K P :=
  if count = 0 then { slab := s, removed := [], asked := [], ending := .atQuota }
  else
    let w := s.walkAll p (some count) []
    if w.ending.panic?.isSome || w.isConsistent || count ≤ w.removed.length then w
    else
      let r := w.slab.relink (lastUse w.asked)
      let w' := r.walkAll p (some (count - w.removed.length)) w.asked
      { w' with removed := w.removed ++ w'.removed }

/-- The reply of a sweep or a trim. -/
def Walked.reply (w : Walked K P) : Reply (Item K P) :=
  .removed w.removed w.ending.panic? w.asked

/-! ### Looking keys up -/

variable [DecidableEq K]

/-- The item of a key. -/
def find? (s : Slab K P) (key : K) : Option (Item K P) :=
  s.items.find? fun item => item.key = key

def getOrInsert (lastUse : List (Item K P) → P → Nat) (p : Predicate (Item K P)) (key : K)
    (payload : Except String P) (s : Slab K P) : Slab K P × Reply (Item K P) :=
  match s.find? key with
  | some item => (s, .occupied item)
  | none =>
    let w := s.trim lastUse p (s.size + 1 - s.maxCapacity)
    match w.ending.panic? with
    | some reason => (w.slab, .panicked reason w.asked)
    | none =>
      if w.slab.maxCapacity ≤ w.slab.size then
        (w.slab, .full w.slab.maxCapacity w.asked)
      else
        match payload with
        | .error reason => (w.slab, .panicked reason w.asked)
        | .ok payload =>
          (w.slab.insert key payload, .vacant (w.slab.nextItem key payload) w.asked)

/-- Carries an operation out. A handle is taken to be that of an item in the slab. -/
def perform (s : Slab K P) : Operation (Item K P) K P → Slab K P × Reply (Item K P)
  | .getOrInsert key payload lastUse p => s.getOrInsert lastUse p key payload
  | .get? key => (s, .found (s.find? key))
  | .remove key =>
    match s.find? key with
    | none => (s, .found none)
    | some item => (s.remove item, .found (some item))
  | .removeNode handle => (s.remove handle, .truth true)
  | .touch handle => (s.touch handle, .truth (s.isLinked handle))
  | .unlink handle => (s.unlink handle, .truth (s.isLinked handle))
  | .trim count lastUse p =>
    let w := s.trim lastUse p count
    (w.slab, w.reply)
  | .sweep lastUse p =>
    let w := s.sweep lastUse p
    (w.slab, w.reply)
  | .relink lastUse => (s.relink lastUse, .count s.size)
  | .resize => (s, .done)
  | .pinch => (s.pinch, .done)
  | .clear => (s.clear, .list s.items)
  | .setMaxCapacity count => ({ s with maxCapacity := max count 1 }, .done)
  | .byRecency => (s, .list s.linked)
  | .nodes => (s, .list s.items)
  | .size => (s, .count s.size)
  | .isEmpty => (s, .truth (s.size == 0))
  | .repairs => (s, .count s.repairs)

/-- The replies to a sequence of operations. -/
def replies : Slab K P → List (Operation (Item K P) K P) → List (Reply (Item K P))
  | _, [] => []
  | s, o :: os => (s.perform o).2 :: replies (s.perform o).1 os

end Slab

/-! ## Operations that do not look at hashes -/

/-- What depends on items, put to nodes. -/
def seeing {α : Type} (f : List (Item K P) → α) (asked : List (Node K P)) : α :=
  f (asked.map Node.item)

/-- A predicate on items, put to nodes. -/
def Predicate.seeing (p : Predicate (Item K P)) : Predicate (Node K P) :=
  fun asked node => p (asked.map Node.item) node.item

/-- An operation on nodes is shown as one on items: its handle has the item that is the handle
    there, and its predicate and its ticks depend on nothing but the items of the nodes. -/
inductive Operation.Shown : Operation (Node K P) K P → Operation (Item K P) K P → Prop
  | getOrInsert (key : K) (payload : Except String P) (lastUse : List (Item K P) → P → Nat)
    (p : Predicate (Item K P)) :
    Shown (.getOrInsert key payload (Table.seeing lastUse) p.seeing)
      (.getOrInsert key payload lastUse p)
  | get? (key : K) : Shown (.get? key) (.get? key)
  | remove (key : K) : Shown (.remove key) (.remove key)
  | removeNode (handle : Node K P) : Shown (.removeNode handle) (.removeNode handle.item)
  | touch (handle : Node K P) : Shown (.touch handle) (.touch handle.item)
  | unlink (handle : Node K P) : Shown (.unlink handle) (.unlink handle.item)
  | trim (count : Nat) (lastUse : List (Item K P) → P → Nat) (p : Predicate (Item K P)) :
    Shown (.trim count (Table.seeing lastUse) p.seeing) (.trim count lastUse p)
  | sweep (lastUse : List (Item K P) → P → Nat) (p : Predicate (Item K P)) :
    Shown (.sweep (Table.seeing lastUse) p.seeing) (.sweep lastUse p)
  | relink (lastUse : P → Nat) : Shown (.relink lastUse) (.relink lastUse)
  | resize : Shown .resize .resize
  | pinch : Shown .pinch .pinch
  | clear : Shown .clear .clear
  | setMaxCapacity (count : Nat) : Shown (.setMaxCapacity count) (.setMaxCapacity count)
  | byRecency : Shown .byRecency .byRecency
  | nodes : Shown .nodes .nodes
  | size : Shown .size .size
  | isEmpty : Shown .isEmpty .isEmpty
  | repairs : Shown .repairs .repairs

/-- The handle of an operation is shown as that of the other one. -/
theorem Operation.Shown.handle? {o : Operation (Node K P) K P} {o' : Operation (Item K P) K P}
    (h : o.Shown o') : o'.handle? = o.handle?.map Node.item := by
  cases h <;> rfl

/-- An operation on items can be shown by one on nodes, if its handle is that of a node. -/
theorem Operation.exists_shown (o' : Operation (Item K P) K P) {nodes : List (Node K P)}
    (h : ∀ item, o'.handle? = some item → item ∈ nodes.map Node.item) :
    ∃ o : Operation (Node K P) K P, o.Shown o' ∧ ∀ node, o.handle? = some node → node ∈ nodes := by
  have hnode {item : Item K P} (hitem : item ∈ nodes.map Node.item)
      (f : ∀ node : Node K P, node.item = item → ∃ o : Operation (Node K P) K P,
        o.Shown o' ∧ o.handle? = some node) :
      ∃ o : Operation (Node K P) K P, o.Shown o' ∧ ∀ node, o.handle? = some node → node ∈ nodes := by
    obtain ⟨node, hmem, hshown⟩ := List.mem_map.1 hitem
    obtain ⟨o, ho, hhandle⟩ := f node hshown
    refine ⟨o, ho, fun n hn => ?_⟩
    rw [hhandle] at hn
    rwa [← Option.some.inj hn]
  cases o' with
  -- Three operations have a handle; all others are shown by themselves.
  | removeNode item =>
    exact hnode (h item rfl) fun node heq => ⟨.removeNode node, heq ▸ .removeNode node, rfl⟩
  | touch item => exact hnode (h item rfl) fun node heq => ⟨.touch node, heq ▸ .touch node, rfl⟩
  | unlink item =>
    exact hnode (h item rfl) fun node heq => ⟨.unlink node, heq ▸ .unlink node, rfl⟩
  | getOrInsert key payload lastUse p => exact ⟨_, .getOrInsert key payload lastUse p, nofun⟩
  | get? key => exact ⟨_, .get? key, nofun⟩
  | remove key => exact ⟨_, .remove key, nofun⟩
  | trim count lastUse p => exact ⟨_, .trim count lastUse p, nofun⟩
  | sweep lastUse p => exact ⟨_, .sweep lastUse p, nofun⟩
  | relink lastUse => exact ⟨_, .relink lastUse, nofun⟩
  | resize => exact ⟨_, .resize, nofun⟩
  | pinch => exact ⟨_, .pinch, nofun⟩
  | clear => exact ⟨_, .clear, nofun⟩
  | setMaxCapacity count => exact ⟨_, .setMaxCapacity count, nofun⟩
  | byRecency => exact ⟨_, .byRecency, nofun⟩
  | nodes => exact ⟨_, .nodes, nofun⟩
  | size => exact ⟨_, .size, nofun⟩
  | isEmpty => exact ⟨_, .isEmpty, nofun⟩
  | repairs => exact ⟨_, .repairs, nofun⟩

/-! ## Sequences of operations -/

variable [DecidableEq K]

/-- The replies to a sequence of operations. -/
def replies : Table K P → List (Operation (Node K P) K P) → List (Reply (Node K P))
  | _, [] => []
  | t, o :: os => (t.perform o).2 :: replies (t.perform o).1 os

/-- Every handle is that of a node which is in the table when it is used. -/
def Holding : Table K P → List (Operation (Node K P) K P) → Prop
  | _, [] => True
  | t, o :: os => (∀ node, o.handle? = some node → node ∈ t.nodes) ∧ Holding (t.perform o).1 os

/-- Every handle is an item that is in the slab when it is used. -/
def Slab.Holding : Slab K P → List (Operation (Item K P) K P) → Prop
  | _, [] => True
  | s, o :: os => (∀ item, o.handle? = some item → item ∈ s.items) ∧ Holding (s.perform o).1 os

end ReadThrough.Table
