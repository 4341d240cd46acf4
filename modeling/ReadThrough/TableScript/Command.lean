import ReadThrough.Error

/-! # Table Scripts

  A script is a list of commands for tables whose keys are natural numbers.

  - **HashRule**, **KeyTest**: how keys are hashed and tested.
  - **Command**: what a script can ask of a table. Nodes are meant by their key or by a name that
    the script has given them.
  - **Answer**: what it gets.
-/

namespace ReadThrough.TableScript

/-! ## Keys -/

/-- How the keys of a table are hashed. -/
inductive HashRule where
  /-- A key is its own hash. -/
  | identity
  /-- The key times the golden ratio of the 64-bit words. -/
  | golden
  /-- The remainder by eight. -/
  | modEight
  /-- The same hash for all keys. -/
  | constant
  /-- The key in the upper half of the word. -/
  | shifted
  deriving DecidableEq, Repr

/-- The hash of a key. -/
def HashRule.hash : HashRule → Nat → UInt64
  | identity, k => k.toUInt64
  | golden, k => k.toUInt64 * 0x9E3779B97F4A7C15
  | modEight, k => (k % 8).toUInt64
  | constant, _ => 42
  | shifted, k => k.toUInt64 <<< 32

/-- A test of a key. -/
inductive KeyTest where
  | always (answer : Bool)
  | among (keys : List Nat)
  | not (test : KeyTest)
  | lessThan (bound : Nat)
  /-- The key leaves `remainder` when divided by `modulus`. Dividing by zero panics. -/
  | residue (modulus remainder : Nat)
  /-- Panics at one key and holds for all others. -/
  | panicAt (key : Nat)
  deriving DecidableEq, Inhabited, Repr

/-- The answer of a test, or the reason of its panic. -/
def KeyTest.run (k : Nat) : KeyTest → Except String Bool
  | always answer => .ok answer
  | among keys => .ok (keys.contains k)
  | not test => (test.run k).map (!·)
  | lessThan bound => .ok (k < bound)
  | residue modulus remainder =>
    if modulus = 0 then .error "attempt to calculate the remainder with a divisor of zero"
    else .ok (k % modulus == remainder)
  | panicAt key => if k = key then .error "predicate" else .ok true

/-! ## Commands -/

/-- A node, by its name or by its key. -/
inductive Target where
  | named (name : String)
  | keyed (key : Nat)
  deriving DecidableEq, Repr

/-- The keys from `first` to below `stop`, in steps. -/
structure Span where
  first : Nat
  stop : Nat
  step : Nat := 1
  deriving DecidableEq, Repr

/-- The keys of a span. -/
def Span.keys (s : Span) : List Nat :=
  (List.range ((s.stop - s.first + s.step - 1) / s.step)).map fun i => s.first + i * s.step

/-- What a script can ask of one table. -/
inductive Command where
  | insert (key tick : Nat) (evict : KeyTest) (keepAs : Option String) (payloadPanics : Bool)
  | get (key : Nat) (keepAs : Option String)
  | remove (key : Nat) (keepAs : Option String)
  | removeNode (target : Target)
  | touch (target : Target)
  | unlink (target : Target)
  | stamp (target : Target) (tick : Nat)
  | inspect (target : Target)
  | forget (name : String)
  | trim (count : Nat) (evict : KeyTest)
  | sweep (stop evict : KeyTest)
  | insertAll (keys : Span) (tick : Option Nat) (evict : KeyTest)
  | removeAll (keys : Span)
  | getAll (keys : Span)
  | relink
  | resize
  | pinch
  | isEmpty
  | clear
  | byRecency
  | bySlot
  | maxCapacity
  | setMaxCapacity (n : Nat)
  | hash (key : Nat)
  | describe
  | live
  deriving DecidableEq, Repr

/-! ## Answers -/

/-- A node as it is shown. -/
structure Shown where
  key : Nat
  tick : Nat
  hash : UInt64
  deriving DecidableEq, Repr

/-- The answer to a command. -/
inductive Answer where
  | nothing
  | flag (b : Bool)
  | count (n : Nat)
  | text (s : String)
  | numbers (ns : List Nat)
  | node (n : Shown)
  | described (n : Shown) (text : String)
  | inserted (n : Shown)
  /-- The key was present; it is handed back. -/
  | present (n : Shown) (key : Nat)
  | failed (error : CacheError)
  | panicked (reason : String)
  deriving DecidableEq, Repr

end ReadThrough.TableScript
