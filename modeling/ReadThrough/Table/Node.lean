/-! # Nodes

  A node is one key with its payload, as the table stores it. It knows the slot that it was
  put into and its generation, a number that no other node of the same table shares, so that a
  node which outlives its place in the table can be told from the one that has taken its slot.

  Slots and generations are natural numbers, and so are the epochs, versions and counters of the
  cache. They stand for words of 32 or 64 bits, which are taken to be wide enough: of all that is
  counted up, only the tick of a clock wraps around.
-/

namespace ReadThrough.Table

/-- A key and its payload. -/
structure Node (K P : Type) where
  /-- The hash of the key. -/
  hash : UInt64
  /-- The slot that the node was put into. -/
  slot : Nat
  /-- The number of the node among all nodes that its table ever held. -/
  generation : Nat
  key : K
  payload : P
  deriving DecidableEq, Repr

end ReadThrough.Table
