import ReadThrough.Cache.Entry

/-! # The Dirty Chain

  A singly linked list of the entries that wait to be written back.

  - **DirtyChain**: first and last entry, and the number of entries. The links are in the entries
    (`Entry.nextDirty?`), so the operations change both.
  - **toList**: the chain as a list of entries.
-/

namespace ReadThrough

variable {K V : Type}

/-- The entries ever made, by their place. -/
abbrev Entries (K V : Type) := Array (Entry K V)

/-- A chain of entries that wait to be written back. -/
structure DirtyChain where
  first? : Option EntryId := none
  last? : Option EntryId := none
  length : Nat := 0
  deriving DecidableEq, Repr

namespace DirtyChain

/-- The entry that follows an entry in the chain. -/
def next? (entries : Entries K V) (id : EntryId) : Option EntryId :=
  entries[id]?.bind Entry.nextDirty?

/-- Points an entry at its successor. -/
def setNext (entries : Entries K V) (id : EntryId) (next? : Option EntryId) : Entries K V :=
  entries.modify id fun e => { e with nextDirty? := next? }

/-- The entries from one on, at most `fuel` of them. -/
def walk (entries : Entries K V) : Nat → Option EntryId → List EntryId
  | 0, _ => []
  | _, none => []
  | fuel + 1, some id => id :: walk entries fuel (next? entries id)

/-- The entries of a chain in order. -/
def toList (entries : Entries K V) (c : DirtyChain) : List EntryId :=
  walk entries entries.size c.first?

/-- Appends an entry that is not in the chain. -/
def pushBack (id : EntryId) (entries : Entries K V) (c : DirtyChain) : Entries K V × DirtyChain :=
  match c.last? with
  | none => (entries, { c with first? := some id, last? := some id, length := c.length + 1 })
  | some last =>
    (setNext entries last (some id), { c with last? := some id, length := c.length + 1 })

/-- Takes the first entry out, if there is one. -/
def popFront (entries : Entries K V) (c : DirtyChain) :
    Option EntryId × Entries K V × DirtyChain :=
  match c.first? with
  | none => (none, entries, c)
  | some id =>
    let second? := next? entries id
    (some id, setNext entries id none,
      { first? := second?
        last? := if second?.isNone then none else c.last?
        length := c.length - 1 })

/-- Puts an entry in front. -/
def pushFront (id : EntryId) (entries : Entries K V) (c : DirtyChain) : Entries K V × DirtyChain :=
  (setNext entries id c.first?,
    { first? := some id
      last? := if c.first?.isNone then some id else c.last?
      length := c.length + 1 })

/-- Puts entries in front, in their given order. -/
def pushFrontAll : List EntryId → Entries K V → DirtyChain → Entries K V × DirtyChain
  | [], entries, c => (entries, c)
  | id :: ids, entries, c =>
    let (entries, c) := pushFrontAll ids entries c
    c.pushFront id entries

@[simp] theorem toList_nil (entries : Entries K V) : ({} : DirtyChain).toList entries = [] := by
  unfold toList
  cases entries.size <;> rfl

end DirtyChain

end ReadThrough
