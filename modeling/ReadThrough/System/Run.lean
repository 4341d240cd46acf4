import ReadThrough.System.Basic

/-! # Runs

  Everything that can happen to a system, as data.

  - **Upkeep**: what a client does at once, without a call.
  - **Action**: upkeep, or a single step of one of the calls in progress. A run of actions is any
    interleaving of any number of callers, at the grain of critical sections.
  - **Move**: upkeep, or the start or the end of a callback of the latest call. A run of moves is
    what a single caller can bring about, whose callbacks may make moves of their own.
-/

namespace ReadThrough

variable {K V : Type}

/-! ## Upkeep -/

/-- What a client does at once, without a call. -/
inductive Upkeep where
  | clear
  | trim (n : Nat)
  | setMaxCapacity (n : Nat)
  | idleTrim (cutoff : Nat)
  | evictIdle (seconds : Nat)
  | relieve (level : Pressure)
  | pinch
  | setTimeout (seconds : Nat)
  | setLoadLimit (limit : Nat)
  | advanceClock (seconds : Nat)
  | setClock (tick : Nat)
  | drain (name : String) (limit : Nat) (copyOn : Bool)
  | next (name : String) (keepAs : Option String)
  | finish (name : String) (how : Finish)
  | dropBatch (name : String)
  | beginItem (entries : List EntryId)
  | endItem
  | takeYield (name : String) (keepAs : Option String)
  | release (name : String)
  deriving DecidableEq, Repr

/-- The system after some upkeep. -/
def System.keepUp (s : System K V) : Upkeep → System K V
  | .clear => s.onCache (Cache.clear s.held)
  | .trim n => s.onCache fun c => (c.trim n).1
  | .setMaxCapacity n => s.onCache (Cache.setMaxCapacity n)
  | .idleTrim cutoff => s.onCache fun c => (c.idleTrim s.held cutoff).1
  | .evictIdle seconds => s.onCache fun c => (c.evictIdle s.held seconds).1
  | .relieve level => s.onCache (Cache.relieve level)
  | .pinch => s.onCache fun c => c.pinch.1
  | .setTimeout seconds => s.onCache (Cache.setTimeout seconds)
  | .setLoadLimit limit => s.onCache (Cache.setLoadLimit limit)
  | .advanceClock seconds => s.onCache (Cache.advanceClock seconds)
  | .setClock tick => s.onCache (Cache.setClock tick)
  | .drain name limit copyOn => s.drain name limit copyOn
  | .next name keepAs => (s.next name keepAs).1
  | .finish name how => (s.finish name how).1
  | .dropBatch name => s.dropBatch name
  | .beginItem entries => s.beginItem entries
  | .endItem => s.endItem
  | .takeYield name keepAs => (s.takeYield name keepAs).1
  | .release name => s.release name

/-! ## Interleaved runs -/

/-- One step of one of several callers. Calls are meant by their place. -/
inductive Action (K V : Type) where
  | spawn (r : Request K V)
  | advance (i : Nat)
  | resume (r : Return V) (i : Nat)
  | expire (i : Nat)
  | collect (i : Nat) (keepAs : Option String)
  | upkeep (u : Upkeep)
  deriving DecidableEq, Repr

/-- The system after an action. -/
def System.act [DecidableEq K] (s : System K V) : Action K V → System K V
  | .spawn r => s.spawn r
  | .advance i => s.advance i
  | .resume r i => s.resume r i
  | .expire i => s.expire i
  | .collect i keepAs => s.collect i keepAs
  | .upkeep u => s.keepUp u

/-- The system after a run of actions. -/
def System.actAll [DecidableEq K] (s : System K V) (actions : List (Action K V)) : System K V :=
  actions.foldl System.act s

/-- What some run of actions leads to, from a new system. -/
def System.Reachable [DecidableEq K] (s : System K V) : Prop :=
  ∃ config clock hashOf actions, s = (System.new config clock hashOf).actAll actions

/-! ## Runs of a single caller -/

/-- What a single caller does next. -/
inductive Move (K V : Type) where
  /-- It starts a call, which goes on until its callback runs or it is done. -/
  | start (r : Request K V)
  /-- The callback of the latest call ends, and that call goes on until it is done. -/
  | reply (r : Return V)
  /-- It takes the outcome of the latest call. -/
  | collect (keepAs : Option String)
  | upkeep (u : Upkeep)
  deriving DecidableEq, Repr

/-- The system after a move. -/
def System.move [DecidableEq K] (s : System K V) : Move K V → System K V
  | .start r => s.start r
  | .reply r => s.reply r (s.calls.length - 1)
  | .collect keepAs => s.collect (s.calls.length - 1) keepAs
  | .upkeep u => s.keepUp u

/-- The system after a run of moves. -/
def System.moveAll [DecidableEq K] (s : System K V) (moves : List (Move K V)) : System K V :=
  moves.foldl System.move s

/-! ## Moves are runs of actions -/

namespace System

variable [DecidableEq K]

@[simp] theorem actAll_nil (s : System K V) : s.actAll [] = s := rfl

@[simp] theorem actAll_cons (s : System K V) (a : Action K V) (as : List (Action K V)) :
    s.actAll (a :: as) = (s.act a).actAll as := rfl

theorem actAll_append (s : System K V) (as bs : List (Action K V)) :
    s.actAll (as ++ bs) = (s.actAll as).actAll bs :=
  List.foldl_append

/-- A call that goes on takes some number of single steps. -/
theorem exists_actAll_eq_runCall (i : Nat) (fuel : Nat) (s : System K V) :
    ∃ as : List (Action K V), s.actAll as = s.runCall i fuel := by
  induction fuel generalizing s with
  | zero => exact ⟨[], rfl⟩
  | succ n ih =>
    unfold runCall
    split
    · exact ⟨[], rfl⟩
    · obtain ⟨as, h⟩ := ih (s.advance i)
      exact ⟨.advance i :: as, h⟩

/-- A call that is carried on takes some number of single steps. -/
theorem exists_actAll_eq_carryOn (i : Nat) (s : System K V) :
    ∃ as : List (Action K V), s.actAll as = s.carryOn i := by
  obtain ⟨as, ha⟩ := exists_actAll_eq_runCall i stepLimit s
  obtain ⟨bs, hb⟩ := exists_actAll_eq_runCall i stepLimit ((s.runCall i stepLimit).expire i)
  refine ⟨as ++ .expire i :: bs, ?_⟩
  rw [actAll_append, ha, actAll_cons]
  exact hb

/-- Every move is a run of actions. -/
theorem exists_actAll_eq_move (s : System K V) (m : Move K V) :
    ∃ as : List (Action K V), s.actAll as = s.move m := by
  cases m with
  | start r =>
    obtain ⟨as, h⟩ := exists_actAll_eq_carryOn s.calls.length (s.spawn r)
    exact ⟨.spawn r :: as, h⟩
  | reply r =>
    let i := s.calls.length - 1
    obtain ⟨as, h⟩ := exists_actAll_eq_carryOn i (s.resume r i)
    exact ⟨.resume r i :: as, h⟩
  | collect keepAs => exact ⟨[.collect (s.calls.length - 1) keepAs], rfl⟩
  | upkeep u => exact ⟨[.upkeep u], rfl⟩

/-- Every run of moves is a run of actions, so what holds after all runs of actions holds for a
    single caller too. -/
theorem exists_actAll_eq_moveAll (s : System K V) (ms : List (Move K V)) :
    ∃ as : List (Action K V), s.actAll as = s.moveAll ms := by
  induction ms generalizing s with
  | nil => exact ⟨[], rfl⟩
  | cons m ms ih =>
    obtain ⟨as, ha⟩ := exists_actAll_eq_move s m
    obtain ⟨bs, hb⟩ := ih (s.move m)
    exact ⟨as ++ bs, by rw [actAll_append, ha]; exact hb⟩

end System

end ReadThrough
