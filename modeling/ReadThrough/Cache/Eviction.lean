import ReadThrough.Cache.Basic

/-! # Eviction

  How entries leave the cache other than by name.

  - **trim**: a number of entries from the least recently used end. Entries that are pending, dirty
    or in the dirty chain are skipped.
  - **idleTrim**: entries that nobody has used for a while, as the idle policy says.
  - **relieve**: what a request for memory brings about.

  A walk asks for each entry within one step of the cache, and no step of a caller is half done
  then. So the lock of an entry is always free, and no entry is left alone for being in use.
-/

namespace ReadThrough

/-- The number of entries that a request for memory asks for, out of `size`. -/
def Pressure.target (size : Nat) : Pressure → Nat
  | .low => (size + 3) / 4
  | .critical => size

namespace Cache

open Table

variable {K V : Type}

/-! ## Capacity -/

/-- The entries while a walk goes on, and how many of them it has counted. -/
abbrev Census (K V : Type) := Entries K V × Nat

/-- The tick of the latest use of an entry, as a walk knows it. -/
def lastUseIn (m : Census K V) (id : EntryId) : Nat :=
  lastUse m.1 id

/-- Marks an entry as removed. -/
def markRemoved (entries : Entries K V) (id : EntryId) : Entries K V :=
  entries.modify id fun e => { e with removed := true }

/-- Evicts every entry that is not protected; the evictions are counted. Steps are whole critical
    sections, so no entry is kept for being locked. -/
def evictor : Judge K EntryId (Census K V) := fun node (entries, evictions) =>
  if entries[node.payload]?.all Entry.isProtected then (.keep, (entries, evictions))
  else (.evict, (markRemoved entries node.payload, evictions + 1))

/-- Adds to the number of evictions. -/
def countEvictions (n : Nat) (c : Cache K V) : Cache K V :=
  c.count fun k => { k with evictions := k.evictions + n }

/-- Removes up to `n` entries from the least recently used end; the result is their number. -/
def trim (n : Nat) (c : Cache K V) : Cache K V × Nat :=
  let (c, evicted, evictions) := c.consult fun table entries =>
    (table.trim lastUseIn evictor n (entries, 0)).map fun r =>
      ((r.removed.length, r.memory.2), r.memory.1)
  let c := c.countEvictions evictions
  if evicted = 0 then (c, 0) else (c.emit (.trimmed n evicted), evicted)

/-- Sets the greatest number of entries, which is at least one, and evicts entries beyond it. -/
def setMaxCapacity (n : Nat) (c : Cache K V) : Cache K V :=
  let c := { c with table := c.table.setMaxCapacity n }
  let excess := c.table.size - c.table.maxCapacity
  if excess = 0 then c
  else
    let (c, evicted) := c.trim excess
    c.emit (.maximumLowered n evicted)

/-! ## Idleness -/

/-- Goes through idle entries until one that was used at the cutoff or later; the values that are
    let go are counted. Steps are whole critical sections, so no entry is kept for being locked. -/
def idler (held : Held) (policy : IdlePolicy) (cutoff : Nat) : Judge K EntryId (Census K V) :=
  fun node (entries, detached) =>
    if cutoff ≤ lastUse entries node.payload then (.stop, (entries, detached))
    else
      match (entries[node.payload]?.map (Entry.idleFate held policy)).getD .keep with
      | .keep => (.keep, (entries, detached))
      | .detach =>
        let entries := entries.modify node.payload fun e => { e with value := e.value.detach }
        (.keep, (entries, detached + 1))
      | .remove => (.evict, (markRemoved entries node.payload, detached))

/-- Releases the entries that were last used before the cutoff; the result is the number of those
    that were removed. -/
def idleTrim (held : Held) (cutoff : Nat) (c : Cache K V) : Cache K V × Nat :=
  let policy := c.idlePolicy
  let (c, removed, detached) := c.consult fun table entries =>
    (table.sweep lastUseIn (idler held policy cutoff) (entries, 0)).map fun r =>
      ((r.removed.length, r.memory.2), r.memory.1)
  let c := (c.countEvictions removed).count fun k => { k with detaches := k.detaches + detached }
  (c.emit (.idleReleased cutoff policy removed detached), removed)

/-- Releases the entries that were last used `seconds` ago or earlier. For no time at all the cutoff
    is the next tick, which is 0 after the last one. -/
def evictIdle (held : Held) (seconds : Nat) (c : Cache K V) : Cache K V × Nat :=
  -- No entry can be older than the clock.
  if c.now < seconds then (c, 0) else c.idleTrim held ((c.now - seconds + 1) % tickSpan)

/-! ## Memory -/

/-- Gives memory of the table back if there are few entries. -/
def pinch (c : Cache K V) : Cache K V × Bool :=
  c.consult fun table entries => table.pinch.map fun pinched => (pinched, entries)

/-- Answers a request for memory. -/
def relieve (level : Pressure) (c : Cache K V) : Cache K V :=
  let (c, evicted) := c.trim (level.target c.size)
  let (c, pinched) := if level = .critical then c.pinch else (c, false)
  c.emit (.pressureHandled level evicted pinched c.size)

end Cache

end ReadThrough
