import ReadThrough.CacheScript.Run

/-! # Meetings of Several Callers

  While the callback of one caller is running, further callers come to the same cache. Each of
  them goes on until it is done or has to wait; when the callback is over, those that wait go on
  one after the other.
-/

namespace ReadThrough.CacheScript

/-- A call as part of a script with several callers. -/
structure Caller where
  request : Request String String
  inside : List Command
  ending : Ending
  keepAs : Option String

/-- A meeting of several callers at one key: a main caller, a number of further callers that come
    while its callback is running, and what happens before, meanwhile and afterwards. -/
structure Meeting where
  before : List Command
  main : Caller
  others : List Caller
  meanwhile : List Command
  afterwards : List Command

/-- What comes of a meeting. -/
structure Minutes where
  before : List (Report Answer)
  main : Answer
  others : List Answer
  meanwhile : List (Report Answer)
  /-- The figures when all callers are done. -/
  size : Nat
  dirtyLength : Nat
  stats : Stats
  afterwards : List (Report Answer)
  closing : Closing

/-- How far a further caller gets when it comes. -/
inductive Arrival where
  /-- It is done. -/
  | answered (answer : Answer)
  /-- It waits for someone else. -/
  | waiting (caller : Caller)

/-- A further caller comes: it goes on until it has to wait, or to its end if it need not. -/
def arrive (caller : Caller) (s : Session) : Session × Arrival :=
  let i := s.calls.length
  let s := (s.spawn caller.request).runCall i System.stepLimit
  let (s, callback?) := complete i (performAll caller.inside) caller.ending s
  if (s.outcome? i).isSome then
    let (s, answer) := collect i caller.request callback? caller.keepAs s
    (s, .answered answer)
  else (s, .waiting caller)

/-- Further callers come one after the other. -/
def arriveAll : List Caller → Session → Session × List Arrival
  | [], s => (s, [])
  | caller :: rest, s =>
    let (s, arrival) := arrive caller s
    let (s, arrivals) := arriveAll rest s
    (s, arrival :: arrivals)

/-- The callers that wait go to their ends one after the other. Each is the oldest call when its
    turn comes. -/
def leaveAll : List Arrival → Session → Session × List Answer
  | [], s => (s, [])
  | .answered answer :: rest, s =>
    let (s, answers) := leaveAll rest s
    (s, answer :: answers)
  | .waiting caller :: rest, s =>
    -- What a parked call has waited for is over by now, so one look frees it.
    let s := (s.advance 0).carryOn 0
    let (s, callback?) := complete 0 (performAll caller.inside) caller.ending s
    let (s, answer) := collect 0 caller.request callback? caller.keepAs s
    let (s, answers) := leaveAll rest s
    (s, answer :: answers)

/-- What happens while the callback of the main caller is running: what its own commands and the
    others did, and how far the further callers got. -/
structure Gathering where
  inside : List (Report Answer) := []
  arrivals : List Arrival := []
  meanwhile : List (Report Answer) := []

/-- The further callers come while the callback of the main caller is running. Nobody comes if it
    does not run at all. -/
def gather (m : Meeting) (s : Session) : Session × Gathering :=
  if (s.outcome? 0).isSome then (s, {})
  else
    let (s, inside) := performAll m.main.inside s
    let (s, arrivals) := arriveAll m.others s
    let (s, meanwhile) := performAll m.meanwhile s
    (s, { inside, arrivals, meanwhile })

/-- Runs a meeting. -/
def meet (m : Meeting) (s : Session) : Minutes :=
  let (s, before) := performAll m.before s
  let (s, g) := gather m (s.start m.main.request)
  let (s, callback?) := complete 0 (fun s => (s, g.inside)) m.main.ending s
  let (s, main) := collect 0 m.main.request callback? m.main.keepAs s
  let (s, others) := leaveAll g.arrivals s
  let size := s.cache.size
  let dirtyLength := s.cache.dirtyLength
  let stats := s.cache.stats
  let (s, afterwards) := performAll m.afterwards s
  { before, main, others, meanwhile := g.meanwhile, size, dirtyLength, stats, afterwards
    closing := close s }

end ReadThrough.CacheScript
