import ReadThrough.Cache.Entry

/-! # Requests

  What a caller asks of the cache about a single key, and what comes of it.

  - **Request**: what is asked for. Loads and updates may run a callback.
  - **Return**: how a callback ends.
  - **Outcome**: how the call ends.
-/

namespace ReadThrough

variable {K V : Type}

/-- What a caller asks for. -/
inductive Request (K V : Type) where
  /-- The value of a key, if it has one. -/
  | get (key : K)
  /-- The value of a key, which is loaded if the key has none or if it was put in place `expire`
      or more seconds ago, where zero stands for no expiry. Only some loads accept an empty
      result. -/
  | load (key : K) (expire : Nat) (acceptEmpty : Bool)
  /-- A new value made from the current one. -/
  | update (key : K)
  /-- The value of a key, which is the given one if it has none. -/
  | put (key : K) (content : V)
  /-- To treat the value of a key as changed. -/
  | mark (key : K)
  /-- To forget a key. -/
  | invalidate (key : K)
  deriving DecidableEq, Repr

/-- The key of a request. -/
def Request.key : Request K V → K
  | get key => key
  | load key _ _ => key
  | update key => key
  | put key _ => key
  | mark key => key
  | invalidate key => key

/-- How a call ends. -/
inductive Outcome (V : Type) where
  /-- With a value, or with the answer that there is none. -/
  | value (v? : Option (Value V))
  /-- With the answer whether there was something to mark. -/
  | marked (found : Bool)
  | failed (error : CacheError)
  /-- The callback panicked. -/
  | panicked (reason : String)
  deriving DecidableEq, Repr

/-- The value in an outcome. -/
def Outcome.value? : Outcome V → Option (Value V)
  | .value v? => v?
  | _ => none

/-- How a callback ends. -/
inductive Return (V : Type) where
  | value (content : V)
  /-- Without a value. Only a loader that need not find one may do so; an updater that does
      changes nothing. -/
  | empty
  | fail (reason : String)
  | panic (reason : String)
  deriving DecidableEq, Repr

end ReadThrough
