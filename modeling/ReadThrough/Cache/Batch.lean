import ReadThrough.Cache.Basic

/-! # Write-Back Batches

  A batch takes dirty entries out of the dirty chain, hands them to a consumer one by one, and is
  finished when the consumer has written them or has given up.

  - **Direct mode**: the entries remain members of the chain while the batch is open, so a change
    made meanwhile is folded into the batch. It shows by the version of the entry.
  - **Copy-on mode**: membership ends when the batch is drained, so a change made meanwhile links
    the entry again at once.
  - **Batch.finish**: entries whose written value is still the current one become clean, and the
    others go back to the front of the chain, unless they are there already.
-/

namespace ReadThrough

variable {K V : Type}

/-- Entries taken from the dirty chain, each with its version at that time. -/
structure Batch where
  entries : List (EntryId × Nat)
  /-- How many entries the consumer has got past. -/
  consumed : Nat := 0
  /-- Whether membership in the chain ended when the batch was drained. -/
  copyOn : Bool
  deriving DecidableEq, Repr

namespace Batch

/-- The number of entries. -/
def size (b : Batch) : Nat :=
  b.entries.length

/-- The text of a batch. -/
def describe (b : Batch) : String :=
  Text.openRecord "DirtyBatch"
    [("len", toString b.size), ("consumed", toString b.consumed),
     ("copy_on", if b.copyOn then "true" else "false")]

/-- The first entry that still has a value, and how many entries were passed to get behind it. -/
def firstWithValue (peek : EntryId → Option (Value V)) :
    List (EntryId × Nat) → Nat × Option (EntryId × Value V)
  | [] => (0, none)
  | (id, _) :: rest =>
    match peek id with
    | some v => (1, some (id, v))
    | none =>
      let (passed, found) := firstWithValue peek rest
      (passed + 1, found)

/-- Hands out the next entry with its value. Entries whose value cannot be had at this moment
    count as consumed. -/
def next (held : Held) (c : Cache K V) (b : Batch) : Batch × Option (EntryId × Value V) :=
  let (passed, found) := firstWithValue (c.peek held) (b.entries.drop b.consumed)
  ({ b with consumed := b.consumed + passed }, found)

/-! ## Finishing -/

/-- What becomes of an entry when its batch is finished. -/
inductive Fate where
  /-- The current value was written. -/
  | clean
  /-- The entry is in the chain or in another batch already. -/
  | leave
  /-- The entry goes back to the chain. -/
  | relink
  deriving DecidableEq, Repr

/-- Whether an entry counts as written: in a committed batch if it was consumed, and also in an
    aborted one if that was drained in copy-on mode. -/
def isWritten (how : Finish) (copyOn consumed : Bool) : Bool :=
  consumed && (how == .commit || (how == .abort && copyOn))

/-- What becomes of an entry that was drained at a version. -/
def fate (how : Finish) (copyOn consumed : Bool) (version : Nat) (e : Entry K V) : Fate :=
  let written := isWritten how copyOn consumed
  -- Unchanged since it was drained: the written value is the current one.
  if written && e.version == version && !e.value.isPending && (!copyOn || !e.inChain) then .clean
  -- Linked again by a change, or drained again by another batch.
  else if written && copyOn && (e.inChain || e.version != version) then .leave
  else if copyOn && e.inChain then .leave
  else .relink

/-- An entry after its fate. In direct mode an entry that goes back has never lost its
    membership. -/
def Fate.apply (copyOn : Bool) : Fate → Entry K V → Entry K V
  | clean, e => { e with value := e.value.clean, inChain := false }
  | leave, e => e
  | relink, e => { e with inChain := e.inChain || copyOn }

/-- A batch being finished. -/
structure Settlement (K V : Type) where
  entries : Entries K V
  /-- The entries that go back to the chain, the last one first. -/
  relink : List EntryId := []
  /-- The number of entries that became clean. -/
  cleaned : Nat := 0

/-- Settles one entry of a batch. -/
def settleOne (how : Finish) (copyOn consumed : Bool) (id : EntryId) (version : Nat)
    (s : Settlement K V) : Settlement K V :=
  match s with
  | { entries, relink, cleaned } =>
    match entries[id]?.map (fate how copyOn consumed version) with
    | none => { entries, relink, cleaned }
    | some fate =>
      { entries := entries.modify id (fate.apply copyOn)
        relink := if fate = .relink then id :: relink else relink
        cleaned := if fate = .clean then cleaned + 1 else cleaned }

/-- Settles the entries of a batch in order, the first `consumed` of which were consumed. -/
def settle (how : Finish) (copyOn : Bool) : List (EntryId × Nat) → Nat → Settlement K V →
    Settlement K V
  | [], _, s => s
  | (id, version) :: rest, consumed, s =>
    settle how copyOn rest (consumed - 1) (settleOne how copyOn (consumed != 0) id version s)

end Batch

namespace Cache

/-! ## Draining -/

/-- Takes up to `limit` entries from the front of the chain. -/
def takeDirty (copyOn : Bool) : Nat → Entries K V → DirtyChain →
    List (EntryId × Nat) × Entries K V × DirtyChain
  | 0, entries, chain => ([], entries, chain)
  | limit + 1, entries, chain =>
    match chain.popFront entries with
    | (none, entries, chain) => ([], entries, chain)
    -- The version tells later whether the entry was changed while the batch was open.
    | (some id, entries, chain) =>
      let version := (entries[id]?.map Entry.version).getD 0
      let entries :=
        if copyOn then entries.modify id fun e => { e with inChain := false } else entries
      let (rest, entries, chain) := takeDirty copyOn limit entries chain
      ((id, version) :: rest, entries, chain)

/-- Drains up to `limit` entries from the front of the dirty chain into a batch. -/
def drain (limit : Nat) (copyOn : Bool) (c : Cache K V) : Cache K V × Batch :=
  let (c, taken) := c.withChain (takeDirty copyOn (min limit c.entries.size))
  (c.emit (.drained taken.length copyOn), { entries := taken, copyOn })

/-- Finishes a batch. The result is the number of entries that became clean, if the batch is
    committed, and the number of entries that went back otherwise. -/
def finish (how : Finish) (b : Batch) (c : Cache K V) : Cache K V × Nat :=
  let (c, cleaned, relinked) := c.withChain fun entries chain =>
    let { entries, relink, cleaned } := Batch.settle how b.copyOn b.entries b.consumed { entries }
    ((cleaned, relink.length), chain.pushFrontAll relink.reverse entries)
  let c := c.emit (.finished how cleaned relinked b.copyOn)
  (c, if how = .commit then cleaned else relinked)

/-- Forgets a batch that was not finished: it is rolled back in copy-on mode and aborted in direct
    mode. -/
def dropBatch (b : Batch) (c : Cache K V) : Cache K V :=
  if b.entries.isEmpty then c
  else
    let c := c.emit (.batchDropped b.size b.consumed)
    (c.finish (if b.copyOn then .rollback else .abort) b).1

end Cache

end ReadThrough
