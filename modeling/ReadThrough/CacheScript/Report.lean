import ReadThrough.System.Basic

/-! # Reports of Cache Scripts

  What a script learns from its commands.

  - **Answer**: the answer to a command. A call that ran a callback answers with the reports of the
    commands in there.
  - **Report**: an answer, with the figures of the cache afterwards and the events since the
    report before.
-/

namespace ReadThrough.CacheScript

/-- What a script works on. -/
abbrev Session := System String String

/-- The answer to a command, with the figures of the cache afterwards and the events since the
    report before. -/
structure Report (α : Type) where
  answer : α
  size : Nat
  dirtyLength : Nat
  stats : Stats
  events : List Event

/-- The answer to a command. -/
inductive Answer where
  | nothing
  | flag (b : Bool)
  | count (n : Nat)
  | counts (ns : List Nat)
  | text (s : String)
  /-- The outcome of a call that may run a callback. If it did: the key that the callback was given,
      for an updater also the current value, and what the commands of the callback answered. -/
  | outcome (o : Outcome String) (key : Option String) (current : Option (Option String))
      (inside : List (Report Answer))
  | pairs (items : List (String × String))
  | scanned (items : List (String × String × List (Report Answer)))
  | keys (departed : List (Option String))
  | noBatch
  | drained (size : Nat) (copyOn : Bool)
  | batch (size consumed : Nat) (text : String)
  | yield (key value text : String)

/-- Reports on the cache; the events are shown once. -/
def report (answer : Answer) (s : Session) : Session × Report Answer :=
  let c := s.cache
  let r : Report Answer :=
    { answer
      size := c.size
      dirtyLength := c.dirtyLength
      stats := c.stats
      events := c.log.reverse }
  (s.onCache fun c => { c with log := [] }, r)

end ReadThrough.CacheScript
