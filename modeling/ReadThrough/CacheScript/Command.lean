import ReadThrough.Cache.Request
import ReadThrough.Event

/-! # Cache Scripts

  A script is a list of commands for a cache of texts. The callbacks of its calls run commands of
  their own, so scripts are nested.

  - **Command**: what a script can ask for.
  - **Ending**: how a scripted callback ends after its commands.
-/

namespace ReadThrough.CacheScript

/-- How a scripted callback ends. -/
inductive Ending where
  | value (content : String)
  | empty
  | fail (reason : String)
  | panic (reason : String)
  /-- With the current value, and a text appended. -/
  | append (text : String)
  deriving DecidableEq, Inhabited, Repr

/-- What a scripted callback returns when it is given a current value. -/
def Ending.returns (current? : Option String) : Ending → Return String
  | value content => .value content
  | empty => .empty
  | fail reason => .fail reason
  | panic reason => .panic reason
  | append text => .value (current?.getD "" ++ text)

/-- Keys made from a letter and the numbers from `first` to below `stop`. -/
structure Span where
  first : Nat
  stop : Nat
  deriving DecidableEq, Repr

/-- What a script can ask for. -/
inductive Command where
  /-- A call. Its callback runs the commands `inside` first. The value that the call returns may
      be kept. -/
  | call (request : Request String String) (inside : List Command) (ending : Ending)
      (keepAs : Option String)
  | contains (key : String)
  | clear
  | scan
  /-- A scan that runs commands for each item. -/
  | scanEach (inside : List Command)
  | isEmpty
  | capacity
  | maxCapacity
  | now
  | pinch
  | setMaxCapacity (n : Nat)
  | setTimeout (seconds : Nat)
  | setLoadLimit (n : Nat)
  | trim (n : Nat)
  | idleTrim (cutoff : Nat)
  | evictIdle (seconds : Nat)
  | relieve (level : Pressure)
  | advanceClock (seconds : Nat)
  | setClock (tick : Nat)
  | putAll (span : Span)
  | loadAll (span : Span)
  | updateAll (span : Span)
  | drain (batch : String) (limit : Nat) (copyOn : Bool)
  | next (batch : String) (count : Nat) (keepAs : Option String)
  | inspectBatch (batch : String)
  | finish (batch : String) (how : Finish)
  | dropBatch (batch : String)
  /-- What is in the dirty chain; everything is drained and rolled back. -/
  | listChain
  | inspectYield (name : String)
  | takeYield (name : String) (keepAs : Option String)
  | held (name : String)
  | release (name : String)
  | same (name other : String)
  | live
  | describe
  | describeStats
  /-- Evicts one entry after the other, and tells which keys disappear from a scan. -/
  | probe

end ReadThrough.CacheScript
