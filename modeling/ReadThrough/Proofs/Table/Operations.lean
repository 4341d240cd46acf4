import ReadThrough.Table.Sweep

/-! # Operations as Data

  Everything that can be asked of a table, so that sequences of operations can be spoken about.

  - **Predicate**: decides about nodes by the nodes it was asked about before; it may panic.
  - **Operation**: one operation with its arguments. Nodes appear in it as the handles of earlier
    answers and in the predicates; the type they have there is left open.
  - **Reply**: what the operation gives back, together with the nodes its predicate was asked about.
  - **perform**: the operation itself.
-/

namespace ReadThrough.Table

variable {N K P : Type}

/-- Decides about a node, given the nodes that it was asked about before in the same operation,
    the latest one first. -/
abbrev Predicate (N : Type) :=
  List N → N → Verdict

/-- The judge that remembers the nodes that it was asked about. -/
def Predicate.judge (p : Predicate (Node K P)) : Judge K P (List (Node K P)) :=
  fun node asked => (p asked node, node :: asked)

/-- One operation on a table. The ticks at which payloads were last used may depend on what the
    predicate of the operation has been asked. -/
inductive Operation (N K P : Type) where
  /-- Looks a key up and inserts it if it is absent. -/
  | getOrInsert (key : K) (payload : Except String P) (lastUse : List N → P → Nat)
    (predicate : Predicate N)
  | get? (key : K)
  | remove (key : K)
  | removeNode (handle : N)
  | touch (handle : N)
  | unlink (handle : N)
  | trim (count : Nat) (lastUse : List N → P → Nat) (predicate : Predicate N)
  | sweep (lastUse : List N → P → Nat) (predicate : Predicate N)
  | relink (lastUse : P → Nat)
  | resize
  | pinch
  | clear
  | setMaxCapacity (count : Nat)
  | byRecency
  | nodes
  | size
  | isEmpty
  | repairs

/-- The handle that an operation is given. -/
def Operation.handle? : Operation N K P → Option N
  | .removeNode handle | .touch handle | .unlink handle => some handle
  | _ => none

/-- What an operation gives back. -/
inductive Reply (N : Type) where
  | done
  | truth (value : Bool)
  | count (n : Nat)
  | found (node? : Option N)
  | list (nodes : List N)
  /-- The key was there. -/
  | occupied (node : N)
  /-- The key was inserted. -/
  | vacant (node : N) (asked : List N)
  /-- There was no room. -/
  | full (capacity : Nat) (asked : List N)
  /-- The predicate or the payload of an insertion panicked. -/
  | panicked (reason : String) (asked : List N)
  /-- The nodes that were removed, and whether the predicate panicked. -/
  | removed (nodes : List N) (panic? : Option String) (asked : List N)
  deriving DecidableEq, Repr

/-- The reply in which the nodes are seen through a function. -/
def Reply.map {M : Type} (f : N → M) : Reply N → Reply M
  | .done => .done
  | .truth value => .truth value
  | .count n => .count n
  | .found node? => .found (node?.map f)
  | .list nodes => .list (nodes.map f)
  | .occupied node => .occupied (f node)
  | .vacant node asked => .vacant (f node) (asked.map f)
  | .full capacity asked => .full capacity (asked.map f)
  | .panicked reason asked => .panicked reason (asked.map f)
  | .removed nodes panic? asked => .removed (nodes.map f) panic? (asked.map f)

/-- The reply of an insertion. -/
def Entrance.reply (asked : List (Node K P)) : Entrance K P → Reply (Node K P)
  | .occupied node _ => .occupied node
  | .vacant node => .vacant node asked
  | .full capacity => .full capacity asked
  | .panicked reason => .panicked reason asked

/-- The reply of a sweep or a trim. -/
def Removal.reply (r : Removal K P (List (Node K P))) : Reply (Node K P) :=
  .removed r.removed r.panic? r.memory

variable [DecidableEq K]

/-- Carries an operation out. What growing and pinching gave back is left out of the reply. -/
def perform (t : Table K P) : Operation (Node K P) K P → Table K P × Reply (Node K P)
  | .getOrInsert key payload lastUse p =>
    let r := t.getOrInsert lastUse p.judge key payload []
    (r.table, r.value.1.reply r.value.2)
  | .get? key => (t, .found (t.get? key))
  | .remove key =>
    let r := t.remove key
    (r.1, .found r.2)
  | .removeNode handle =>
    let r := t.removeNode handle
    (r.1, .truth r.2)
  | .touch handle => (t.touch handle, .truth (t.isLinked handle))
  | .unlink handle => (t.unlink handle, .truth (t.isLinked handle))
  | .trim count lastUse p =>
    let r := t.trim lastUse p.judge count []
    (r.table, r.value.reply)
  | .sweep lastUse p =>
    let r := t.sweep lastUse p.judge []
    (r.table, r.value.reply)
  | .relink lastUse =>
    let r := t.relink lastUse
    (r.table, .count r.value)
  | .resize => (t.resize.table, .done)
  | .pinch => (t.pinch.table, .done)
  | .clear =>
    let r := t.clear
    (r.1, .list r.2)
  | .setMaxCapacity count => (t.setMaxCapacity count, .done)
  | .byRecency => (t, .list t.byRecency)
  | .nodes => (t, .list t.nodes)
  | .size => (t, .count t.size)
  | .isEmpty => (t, .truth t.isEmpty)
  | .repairs => (t, .count t.repairs)

/-- The tables that operations lead to. A handle is a node that was in some such table at some
    time: in this one or in another one, now or earlier. -/
inductive Reachable : Table K P → Prop
  | empty (initial maxCapacity : Nat) (loadFactor : LoadFactor) (hashOf : K → UInt64) :
    Reachable (Table.empty initial maxCapacity loadFactor hashOf)
  | perform {t : Table K P} (o : Operation (Node K P) K P) (ht : Reachable t)
    (hnone : o.handle? = none) : Reachable (t.perform o).1
  | performOn {t t' : Table K P} {node : Node K P} (o : Operation (Node K P) K P)
    (ht : Reachable t) (ht' : Reachable t') (hmem : node ∈ t'.nodes)
    (hnode : o.handle? = some node) : Reachable (t.perform o).1

end ReadThrough.Table
