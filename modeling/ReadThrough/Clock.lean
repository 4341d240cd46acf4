import ReadThrough.Text.Record

/-! # Clocks

  Tick sources with a resolution of one second.

  - **Manual clock**: moves only when told to. Its tick is a 64-bit word, so moving it forward
    wraps around.
  - **Steady clock**: counts the seconds since it was made. Calls into the library take no
    time that could be counted, so it stands at its first tick.
-/

namespace ReadThrough

/-- The number of ticks a clock tells apart. -/
def tickSpan : Nat := Nat.pow 2 64

/-- A source of ticks. -/
inductive Clock where
  /-- A clock that stands at `tick` until it is moved. -/
  | manual (tick : Nat)
  /-- A clock that nobody can move. -/
  | steady
  deriving DecidableEq, Repr

namespace Clock

/-- The current tick. -/
def now : Clock → Nat
  | manual tick => tick % tickSpan
  | steady => 0

theorem now_lt (c : Clock) : c.now < tickSpan := by
  cases c with
  | manual tick => exact Nat.mod_lt tick (Nat.two_pow_pos 64)
  | steady => exact Nat.two_pow_pos 64

/-- Moves a manual clock forward. -/
def advance (seconds : Nat) : Clock → Clock
  | manual tick => manual ((tick + seconds) % tickSpan)
  | steady => steady

/-- Puts a manual clock at a tick. -/
def set (tick : Nat) : Clock → Clock
  | manual _ => manual tick
  | steady => steady

/-- The text of a manual clock at a tick. -/
def describeManual (tick : Nat) : String :=
  Text.closedRecord "ManualClock" [("tick", toString tick)]

end Clock

end ReadThrough
