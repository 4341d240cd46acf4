import ReadThrough.Config
import ReadThrough.Error

/-! # Entries

  The state of one key of the cache.

  - **Value**: what callers share. Each value that a callback returns has an identity of its own.
  - **Held**: which values someone outside the entry still holds. An entry may let go of its value
    and find it again for as long as it is held.
  - **ValueState**: the six states of an entry.
  - **Entry**: the state, with the ticks, epochs and marks that decide about it. An entry goes on
    living when its node has left the table, for as long as a call or a batch refers to it.
-/

namespace ReadThrough

variable {K V : Type}

/-! ## Values -/

/-- A shared value. Two values are the same one if they have the same identity, whatever their
    contents. -/
structure Value (V : Type) where
  id : Nat
  content : V
  deriving DecidableEq, Repr

/-- Which values, by identity, are held by someone outside the entries. -/
abbrev Held := Nat → Bool

/-- The place of an entry among all entries ever made. -/
abbrev EntryId := Nat

/-! ## States -/

/-- What an entry holds. -/
inductive ValueState (V : Type) where
  /-- Nothing: the last load failed, or a value that was let go is gone. -/
  | unassigned
  /-- A load or an update is in flight. -/
  | pending
  /-- A value as it was loaded or written back. -/
  | ready (v : Value V)
  /-- A value with changes that are not written back. -/
  | dirty (v : Value V)
  /-- A value that was let go and only lives as long as someone else holds it. -/
  | detached (v : Value V)
  /-- The empty result of a load. -/
  | missing
  deriving DecidableEq, Repr

namespace ValueState

/-- The value that can be had from a state. -/
def peek (held : Held) : ValueState V → Option (Value V)
  | ready v => some v
  | dirty v => some v
  | detached v => if held v.id then some v else none
  | _ => none

/-- Takes a value that was let go back, or finds that it is gone. -/
def resolve (held : Held) : ValueState V → ValueState V
  | detached v => if held v.id then ready v else unassigned
  | s => s

/-- Lets a value go. -/
def detach : ValueState V → ValueState V
  | ready v => detached v
  | s => s

/-- Declares the changes written back. -/
def clean : ValueState V → ValueState V
  | dirty v => ready v
  | s => s

/-- The value that a state keeps alive. -/
def kept : ValueState V → Option (Value V)
  | ready v => some v
  | dirty v => some v
  | _ => none

/-- Whether a load or an update is in flight. -/
def isPending : ValueState V → Bool
  | pending => true
  | _ => false

/-- Whether there are changes that are not written back. -/
def isDirty : ValueState V → Bool
  | dirty _ => true
  | _ => false

@[simp] theorem peek_resolve (held : Held) (s : ValueState V) :
    (s.resolve held).peek held = s.peek held := by
  cases s with
  | detached v => by_cases h : held v.id <;> simp [resolve, peek, h]
  | _ => rfl

@[simp] theorem resolve_resolve (held : Held) (s : ValueState V) :
    (s.resolve held).resolve held = s.resolve held := by
  cases s with
  | detached v => by_cases h : held v.id <;> simp [resolve, h]
  | _ => rfl

end ValueState

/-! ## Entries -/

/-- The state of a key. -/
structure Entry (K V : Type) where
  key : K
  value : ValueState V
  /-- The tick at which the value or the empty result was put in place. -/
  lastReady : Nat
  /-- The tick of the latest use. -/
  lastAccess : Nat
  /-- How often the entry has become pending. -/
  epoch : Nat
  /-- The error of a failed load, with the epoch of that load. -/
  failure? : Option (Nat × CacheError) := none
  /-- Whether the node of the entry has left the table. -/
  removed : Bool := false
  /-- Whether the entry is in the dirty chain, or in a batch that keeps its membership. -/
  inChain : Bool := false
  /-- How often the entry was marked dirty. -/
  version : Nat := 0
  /-- The next entry of the dirty chain. -/
  nextDirty? : Option EntryId := none

namespace Entry

/-- A new entry in the given state. -/
def new (key : K) (value : ValueState V) (now : Nat) : Entry K V :=
  { key, value, lastReady := now, lastAccess := now, epoch := if value.isPending then 1 else 0 }

/-- Whether the entry must not be evicted. -/
def isProtected (e : Entry K V) : Bool :=
  e.value.isPending || e.value.isDirty || e.inChain

/-- Takes a value that was let go back, or finds that it is gone. -/
def resolve (held : Held) (e : Entry K V) : Entry K V :=
  { e with value := e.value.resolve held }

/-- Starts a load or an update. -/
def begin (e : Entry K V) : Entry K V :=
  { e with value := .pending, epoch := e.epoch + 1 }

/-- Puts a value or an empty result in place. -/
def install (value : ValueState V) (now : Nat) (e : Entry K V) : Entry K V :=
  { e with value, lastReady := now, failure? := none }

/-- Records that the load of an epoch failed. -/
def fail (epoch : Nat) (error : CacheError) (e : Entry K V) : Entry K V :=
  { e with value := .unassigned, failure? := some (epoch, error) }

/-- Whether the operation that was started at an epoch is still in flight. -/
def isPendingAt (epoch : Nat) (e : Entry K V) : Bool :=
  e.value.isPending && e.epoch == epoch

/-- Gives the state before an abandoned operation back. -/
def restore (epoch : Nat) (prior : ValueState V) (e : Entry K V) : Entry K V :=
  if e.isPendingAt epoch then { e with value := prior } else e

/-- The error of the load of an epoch, if it failed. -/
def failureAt (epoch : Nat) (e : Entry K V) : Option CacheError :=
  match e.failure? with
  | some (failed, error) => if failed = epoch then some error else none
  | none => none

/-- Marks the entry dirty. It has to be linked into the dirty chain unless it was a member. -/
def enlist (v : Value V) (e : Entry K V) : Entry K V :=
  { e with value := .dirty v, version := e.version + 1, inChain := true }

/-- Records a use. -/
def stamp (now : Nat) (e : Entry K V) : Entry K V :=
  { e with lastAccess := max e.lastAccess now }

/-- Marks the entry as removed by name. Its value is dropped unless it still has to be written
    back or is about to be put in place. -/
def retire (held : Held) (e : Entry K V) : Entry K V :=
  let e := { e.resolve held with removed := true }
  if e.isProtected then e else { e with value := .unassigned }

/-! ### Freshness -/

/-- What a load finds when it looks at an entry. -/
inductive Finding (V : Type) where
  /-- A usable value, or a usable empty result. -/
  | hit (v? : Option (Value V))
  /-- A load or an update by someone else. -/
  | pending
  /-- Nothing usable. -/
  | load
  deriving DecidableEq, Repr

/-- Whether something put in place `age` ticks ago has not expired; zero stands for no expiry. -/
def isFresh (expire age : Nat) : Bool :=
  expire == 0 || age < expire

/-- Whether an empty result of that age has to be loaded again, whatever its expiry. -/
def isStale (policy : NullPolicy) (age : Nat) : Bool :=
  match policy with
  | .keep => false
  | .retry seconds => seconds ≤ age

/-- What a load with the given expiry finds at a tick; only some loads accept an empty result. -/
def find (held : Held) (policy : NullPolicy) (expire : Nat) (acceptEmpty : Bool) (now : Nat)
    (e : Entry K V) : Finding V :=
  let age := now - e.lastReady
  match e.value with
  | .pending => .pending
  -- A dirty value never expires: what a loader finds elsewhere lacks its changes.
  | .dirty v => .hit (some v)
  | .missing =>
    if acceptEmpty && isFresh expire age && !isStale policy age then .hit none else .load
  | s =>
    match s.peek held with
    | some v => if isFresh expire age then .hit (some v) else .load
    | none => .load

/-! ### Idleness -/

/-- What an idle pass does to an entry. -/
inductive IdleFate where
  | keep
  | detach
  | remove
  deriving DecidableEq, Repr

/-- What an idle pass does to an idle entry. Pending and dirty entries are kept. -/
def idleFate (held : Held) (policy : IdlePolicy) (e : Entry K V) : IdleFate :=
  if e.isProtected then .keep
  else
    match e.value, policy with
    | .pending, _ => .keep
    | .dirty _, _ => .keep
    | .ready _, .detach => .detach
    | _, .detach => .keep
    | _, .remove => .remove
    -- A value that only the entry holds would be gone as soon as it is let go.
    | .ready v, .reachability => if held v.id then .detach else .remove
    | .detached v, .reachability => if held v.id then .keep else .remove
    | .unassigned, .reachability => .remove
    | .missing, .reachability => .remove

end Entry

end ReadThrough
