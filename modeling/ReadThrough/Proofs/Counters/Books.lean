import ReadThrough.Proofs.Loads.Reservations
import ReadThrough.Proofs.Recency.Evictions
import ReadThrough.Proofs.Retries.FirstTry

/-! # Bookkeeping

  The cache counts a hit or a miss before a call has come to its outcome, and the end of a load only
  after that. So in the middle of a call the counters are ahead of its outcome or behind it, by an
  amount that the stage of the call tells.

  - **Stage.hits**, **Stage.missed**: how much that is.
  - **Counts**: what one step does to the counters, up to that amount.
  - **Books**: the same together with the entries, each of which is in the table, was evicted or was
    removed by name. The books of successive steps add up.
  - **advance_books**: the books of a critical section.
  - **keepUp_upkept**: the books of upkeep.
-/

namespace ReadThrough

open Cache

variable {K V : Type}

/-! ## Stages -/

/-- The loads that are over, other than by a panic. -/
def Counters.landed (k : Counters) : Nat :=
  k.loads + k.loadFailures

namespace Stage

/-- How many hits a call at a stage stands for: one if it is a get that has found a value, or a load
    that has come to a result. -/
def hits (r : Request K V) (stage : Stage K V) : Nat :=
  match stage.outcome?, r with
  | some (.value v?), .get _ => v?.isSome.toNat
  | some (.value _), .load .. => 1
  | _, _ => 0

/-- How many misses a call at a stage stands for that are not those of loads that are over: one if
    it is a get that has found nothing, or a load whose loader is running or has ended without a
    panic and was not counted yet. -/
def missed (r : Request K V) (stage : Stage K V) : Nat :=
  match stage, r with
  | .touch _ _ (.value v?), .get _ => v?.isNone.toNat
  | .done (.value v?), .get _ => v?.isNone.toNat
  | .running .., .load .. => 1
  | .release _ _ (.value _), _ => 1
  | .release _ _ (.failed _), _ => 1
  | _, _ => 0

/-- Recording the use of an entry changes neither. -/
theorem missed_touch (r : Request K V) (node : EntryNode K) (now : Nat) (outcome : Outcome V) :
    (Stage.touch node now outcome).missed r = (Stage.done outcome : Stage K V).missed r := by
  cases outcome with
  | value v? => cases r <;> rfl
  | _ => rfl

end Stage

/-! ## Counters -/

/-- What a step of a call does to the counters, where `old` and `new` are the stages before it and
    after it. -/
structure Counts (r : Request K V) (k : Counters) (old : Stage K V) (k' : Counters)
    (new : Stage K V) : Prop where
  hits : k'.hits + old.hits r = k.hits + new.hits r
  misses : k'.misses + k.landed + old.missed r = k.misses + k'.landed + new.missed r
  evictions : k'.evictions = k.evictions

section

variable {r : Request K V} {k k' : Counters} {old new : Stage K V}

/-- Waits that are given up and loads that are refused are counted for themselves. -/
theorem counts_of_aside {waits refusals : Nat}
    (hk : k' = { k with loadTimeouts := waits, overloads := refusals })
    (hhits : new.hits r = old.hits r) (hmissed : new.missed r = old.missed r) :
    Counts r k old k' new := by
  subst hk
  refine ⟨?_, ?_, rfl⟩
  · rw [hhits]
  · rw [hmissed]
    rfl

theorem counts_of_hit (hk : k' = { k with hits := k.hits + 1 }) (hold : old.hits r = 0)
    (hnew : new.hits r = 1) (hmissed : new.missed r = old.missed r) : Counts r k old k' new := by
  subst hk
  refine ⟨?_, ?_, rfl⟩
  · rw [hold, hnew]
  · rw [hmissed]
    rfl

theorem counts_of_miss (hk : k' = { k with misses := k.misses + 1 }) (hold : old.missed r = 0)
    (hnew : new.missed r = 1) (hhits : new.hits r = old.hits r) : Counts r k old k' new := by
  have hlanded : k'.landed = k.landed := by
    rw [hk]
    rfl
  subst hk
  refine ⟨?_, ?_, rfl⟩
  · rw [hhits]
  · dsimp only at hlanded ⊢
    omega

/-- The end of a load has been counted. -/
theorem counts_of_landing (hk : k'.hits = k.hits ∧ k'.misses = k.misses ∧
    k'.evictions = k.evictions ∧ k'.landed = k.landed + 1) (hold : old.missed r = 1)
    (hnew : new.missed r = 0) (hhits : new.hits r = old.hits r) : Counts r k old k' new := by
  obtain ⟨hkhits, hkmisses, hkevictions, hklanded⟩ := hk
  refine ⟨?_, ?_, hkevictions⟩
  · rw [hkhits, hhits]
  · omega

end

/-- Marking an entry counts nothing. -/
theorem Cache.makeDirty_counters (id : EntryId) (v : Value V) (c : Cache K V) :
    (c.makeDirty id v).counters = c.counters := by
  unfold makeDirty
  dsimp only
  split <;> rfl

namespace Call

variable {held : Held} {c : Cache K V} {call : Call K V} {node : EntryNode K} {e : Entry K V}
  {now : Nat}

theorem park_counts (r : Request K V) (call : Call K V) (node : EntryNode K) (e : Entry K V)
    (now : Nat) (c : Cache K V) :
    Counts r c.counters (.inspect node now) (park call node e c).1.counters
      (park call node e c).2 := by
  unfold park
  by_cases htime : call.timeout = 0
  · rw [if_pos htime]
    exact counts_of_aside rfl rfl rfl
  · rw [if_neg htime]
    exact counts_of_aside rfl rfl rfl

/-- A look at an entry counts a hit or a miss only where it settles the call or starts a loader. -/
theorem inspect_counts (he : c.entries[node.payload]? = some e) :
    Counts call.request c.counters (.inspect node now) (inspect held call node now c).1.counters
      (inspect held call node now c).2 := by
  unfold inspect
  rw [he]
  dsimp only
  cases hr : call.request with
  -- A get is settled by the look: either it finds a value or it has missed it.
  | get key =>
    show Counts _ _ _ (inspectGet held node e c).1.counters (inspectGet held node e c).2
    unfold inspectGet
    dsimp only
    split
    · exact counts_of_hit rfl rfl rfl rfl
    · exact counts_of_miss rfl rfl rfl rfl
  | load key expire acceptEmpty =>
    show Counts _ _ _ (inspectLoad held call expire acceptEmpty node now e c).1.counters
      (inspectLoad held call expire acceptEmpty node now e c).2
    unfold inspectLoad
    dsimp only
    split
    · -- The node has left the table, so the key is looked up again.
      exact counts_of_aside rfl rfl rfl
    split
    · exact counts_of_hit rfl rfl rfl rfl
    · exact park_counts _ call node e now (c.modify node.payload (Entry.resolve held))
    · -- A load that is refused has not missed anything yet.
      split
      · exact counts_of_aside rfl rfl rfl
      · exact counts_of_miss rfl rfl rfl rfl
  -- Updates, puts and marks count nothing; a wait that is given up counts as such.
  | update key =>
    show Counts _ _ _ (inspectUpdate held call node e c).1.counters
      (inspectUpdate held call node e c).2
    unfold inspectUpdate
    split
    · exact counts_of_aside rfl rfl rfl
    split
    · exact park_counts _ call node e now c
    · exact counts_of_aside rfl rfl rfl
  | put key content =>
    show Counts _ _ _ (inspectPut held call node now e c).1.counters
      (inspectPut held call node now e c).2
    unfold inspectPut
    split
    · exact counts_of_aside rfl rfl rfl
    split
    · exact park_counts _ call node e now c
    · dsimp only
      split <;> exact counts_of_aside rfl rfl rfl
  | mark key =>
    show Counts _ _ _ (inspectMark held node e c).1.counters (inspectMark held node e c).2
    unfold inspectMark
    dsimp only
    split
    · exact counts_of_aside rfl rfl rfl
    · rw [makeDirty_counters]
      exact counts_of_aside rfl rfl rfl
  | invalidate key => exact counts_of_aside rfl rfl rfl

/-- Whoever has waited has missed nothing. -/
theorem wake_counts (call : Call K V) (node : EntryNode K) (epoch : Nat) (c : Cache K V) :
    Counts call.request c.counters (.parked node epoch) (wake call node epoch c).1.counters
      (wake call node epoch c).2 := by
  unfold wake
  split
  · exact counts_of_aside rfl rfl rfl
  split
  · exact counts_of_aside rfl rfl rfl
  split
  · exact counts_of_aside rfl rfl rfl
  · exact counts_of_aside rfl rfl rfl

/-- The end of a load is counted unless its loader panicked. -/
theorem release_counts (hload : call.request.isLoad = true) (node : EntryNode K) (now : Nat)
    (outcome : Outcome V) (c : Cache K V) :
    Counts call.request c.counters (.release node now outcome)
      (release node now outcome c).1.counters (release node now outcome c).2 := by
  cases hr : call.request with
  | load key expire acceptEmpty =>
    cases outcome with
    | value v? =>
      refine counts_of_landing ⟨rfl, rfl, rfl, ?_⟩ rfl rfl rfl
      show c.counters.loads + 1 + c.counters.loadFailures = _
      exact Nat.add_right_comm _ _ _
    | failed error => exact counts_of_landing ⟨rfl, rfl, rfl, rfl⟩ rfl rfl rfl
    | marked found => exact counts_of_aside rfl rfl rfl
    | panicked reason => exact counts_of_aside rfl rfl rfl
  | _ =>
    rw [hr] at hload
    cases hload

end Call

/-! ## Books -/

/-- What some steps of a call leave in the books, where `gone` entries have been removed by name. -/
structure Books (r : Request K V) (gone : Nat) (p q : Cache K V × Stage K V) : Prop where
  hits : q.1.counters.hits + p.2.hits r = p.1.counters.hits + q.2.hits r
  misses : q.1.counters.misses + p.1.counters.landed + p.2.missed r =
    p.1.counters.misses + q.1.counters.landed + q.2.missed r
  /-- Every new entry is in the table, or another one was evicted or removed for it. -/
  entries : q.1.entries.size + p.1.size + p.1.counters.evictions =
    p.1.entries.size + q.1.size + q.1.counters.evictions + gone

section

variable {r : Request K V} {m n : Nat} {p q o : Cache K V × Stage K V}

theorem Books.refl (r : Request K V) (p : Cache K V × Stage K V) : Books r 0 p p :=
  ⟨rfl, rfl, rfl⟩

/-- Books add up. -/
theorem Books.trans (h : Books r m p q) (k : Books r n q o) : Books r (m + n) p o where
  hits := by
    have hfirst := h.hits
    have hthen := k.hits
    omega
  misses := by
    have hfirst := h.misses
    have hthen := k.misses
    omega
  entries := by
    have hfirst := h.entries
    have hthen := k.entries
    omega

/-- A step that may evict. -/
theorem Counts.books_evicting (h : Counts r (p.1.countEvictions n).counters p.2 q.1.counters q.2)
    (hentries : q.1.entries.size + p.1.size = p.1.entries.size + q.1.size + n) : Books r 0 p q where
  hits := h.hits
  misses := h.misses
  entries := by
    have hevictions : q.1.counters.evictions = p.1.counters.evictions + n := h.evictions
    omega

/-- A step that neither evicts nor inserts. -/
theorem Counts.books (h : Counts r p.1.counters p.2 q.1.counters q.2) (hsize : q.1.size = p.1.size)
    (hentries : q.1.entries.size = p.1.entries.size) : Books r 0 p q :=
  Counts.books_evicting (n := 0) h (by omega)

end

/-! ### Lookup and insertion -/

/-- How many entries a look-up for a request removes. -/
def Cache.removals [DecidableEq K] (c : Cache K V) : Request K V → Nat
  | .invalidate key => (c.table.get? key).isSome.toNat
  | _ => 0

/-- As many of `n` nodes have left the buckets as evictions were counted. -/
structure Counted (hashOf : K → UInt64) (n : Nat) (b : Table.Buckets K EntryId)
    (m : Census K V) : Prop where
  sound : b.Sound hashOf
  accounted : b.Accounted
  size : b.size + m.2 = n

/-- The evictor counts exactly the nodes that it takes out. -/
theorem evictor_counted (hashOf : K → UInt64) (n : Nat) :
    (evictor : Table.Judge K EntryId (Census K V)).Keeps (Counted hashOf n) where
  spare := by
    intro b m m' node verdict hjudge hne h
    rw [evictor_spare hjudge hne]
    exact h
  evict := by
    intro b m m' slot node hnode hjudge h
    rw [(evictor_evict hjudge).1]
    have hless := h.accounted.size_removeNode h.sound (Table.Buckets.mem_nodes.2 ⟨slot, hnode⟩)
    have hsize := h.size
    refine ⟨h.sound.removeNode_sound node, h.accounted.removeNode node, ?_⟩
    show (b.removeNode node).1.size + (m.2 + 1) = n
    omega

namespace Call

variable [DecidableEq K] {held : Held} {c : Cache K V} {call : Call K V} {node : EntryNode K}
  {now : Nat}

theorem size_remove (hc : c.table.Complete) {key : K} (hget : c.table.get? key = some node) :
    (c.table.removeNode node).1.size + 1 = c.size := by
  have hnode := (hc.sound.get?_eq_some_iff.1 hget).1
  rw [Table.size, (Table.removeNode_buckets node c.table).1]
  exact hc.ordered.accounted.size_removeNode hc.sound hnode

/-- A look-up takes out the node of a key that is to be forgotten. A get that finds no node has
    missed. -/
theorem lookup_books (hc : c.table.Complete) (r : Request K V) :
    Books r (c.removals r) (c, .lookup) (lookup r c) := by
  cases r with
  | invalidate key =>
    cases hget : c.table.get? key with
    | none =>
      rw [lookup_forgotten hget, removals, hget]
      exact ⟨rfl, rfl, rfl⟩
    | some node =>
      have hsize := size_remove hc hget
      rw [lookup_forgets hget, removals, hget]
      refine ⟨rfl, rfl, ?_⟩
      show c.entries.size + c.size + c.counters.evictions =
        c.entries.size + (c.table.removeNode node).1.size + c.counters.evictions + 1
      omega
  | get key =>
    unfold lookup
    dsimp only
    split
    · exact Counts.books (counts_of_aside rfl rfl rfl) rfl rfl
    · exact Counts.books (counts_of_miss rfl rfl rfl rfl) rfl rfl
  | _ =>
    unfold lookup
    dsimp only
    split
    · exact Counts.books (counts_of_aside rfl rfl rfl) rfl rfl
    · exact Counts.books (counts_of_aside rfl rfl rfl) rfl rfl

/-- Evictions that make room for an entry are counted even if there is no room in the end. -/
theorem insert_books (hc : c.table.Complete) (call : Call K V) (now : Nat) :
    Books call.request 0 (c, .insert now) (call.insert now c) := by
  -- The sweep that makes room loses no entry, and counts every node that it takes out.
  have hkeeps := (evictor_spared c.table.hashOf c.table.buckets c.entries).and
    (evictor_counted c.table.hashOf c.size)
  have hinserts := insert_inserts hkeeps call now c
    ⟨spared_start hc.sound, hc.sound, hc.ordered.accounted, rfl⟩
  generalize call.insert now c = out at hinserts
  cases hinserts with
  | @found c' stage node hget htable hentries hchain hstage hcounters =>
    have hsize : c'.size = c.size := congrArg Table.size htable
    refine Counts.books ?_ hsize (congrArg Array.size hentries)
    show Counts _ c.counters _ c'.counters stage
    rw [hcounters]
    rcases hstage with rfl | rfl
    · exact counts_of_aside rfl rfl rfl
    · exact counts_of_aside rfl rfl rfl
  -- Nothing is inserted, but what was evicted on the way is gone and has been counted.
  | @refused c' stage m hget hkeep hhash hentries hchain hstage hcounters =>
    refine Counts.books_evicting (n := m.2) ?_ ?_
    · show Counts _ (c.countEvictions m.2).counters _ c'.counters stage
      rw [hcounters]
      obtain ⟨capacity, rfl | rfl⟩ := hstage
      · exact counts_of_aside rfl rfl rfl
      · exact counts_of_aside rfl rfl rfl
    · have hsize : c'.size + m.2 = c.size := hkeep.2.size
      have hsame : c'.entries.size = c.entries.size := hentries ▸ hkeep.1.size
      show c'.entries.size + c.size = c.entries.size + c'.size + m.2
      omega
  | @made c' stage room m hget hkeep hhash htable hentries hchain hstage hcounters =>
    obtain ⟨hroom, habsent⟩ := hkeep.1.room hhash hc.sound hget
    refine Counts.books_evicting (n := m.2) ?_ ?_
    · show Counts _ (c.countEvictions m.2).counters _ c'.counters stage
      rw [hcounters, hstage]
      unfold insertedCounters inserted
      cases call.request with
      | load key expire acceptEmpty => exact counts_of_miss rfl rfl rfl rfl
      | _ => exact counts_of_aside rfl rfl rfl
    -- The new entry comes with its node, so the two sides stay even.
    · have hleft : room.size + m.2 = c.size := hkeep.2.size
      have hsize : c'.size = room.size + 1 :=
        (congrArg Table.size htable).trans (hroom.size_insertNew habsent c.entries.size)
      have hsame : m.1.size = c.entries.size := hkeep.1.size
      have hmore : c'.entries.size = m.1.size + 1 := by rw [hentries, Array.size_push]
      show c'.entries.size + c.size = c.entries.size + c'.size + m.2
      omega

/-! ### All steps -/

/-- A critical section that does not look the key up balances the books. -/
theorem advance_books (hc : c.table.Complete)
    (hentry : ∀ node, call.node? = some node → ∃ e, c.entries[node.payload]? = some e)
    (hsuits : call.stage.Suits call.request)
    (hloads : call.isReserved = true → call.request.isLoad = true) (hlookup : call.stage ≠ .lookup)
    (held : Held) : Books call.request 0 (c, call.stage)
      ((call.advance held c).1, (call.advance held c).2.stage) := by
  unfold isReserved at hloads
  unfold node? at hentry
  unfold advance
  dsimp only [goTo]
  cases hstage : call.stage with
  | lookup => exact absurd hstage hlookup
  | inspect node now =>
    rw [hstage] at hentry
    obtain ⟨e, he⟩ := hentry node rfl
    exact (inspect_counts he).books (congrArg Table.size (inspect_table held call node now c))
      (inspect_relinked held call node now c).1
  -- Whether there is a place or not, taking one is neither a hit nor a miss.
  | reserve now =>
    show Books call.request 0 (c, .reserve now)
      (c.reserveLoad, if c.atLoadLimit then .refuse c.loadLimit else .insert now)
    by_cases hlimit : c.atLoadLimit = true
    · rw [if_pos hlimit]
      exact Counts.books (counts_of_aside rfl rfl rfl) rfl rfl
    · rw [if_neg hlimit]
      exact Counts.books (counts_of_aside rfl rfl rfl) rfl rfl
  | refuse limit => exact Counts.books (counts_of_aside rfl rfl rfl) rfl rfl
  | insert now => exact insert_books hc call now
  | giveBack error? =>
    cases error? with
    | none => exact Counts.books (counts_of_aside rfl rfl rfl) rfl rfl
    | some error => exact Counts.books (counts_of_aside rfl rfl rfl) rfl rfl
  -- Waking up changes nothing but the stage.
  | parked node epoch =>
    have hsame := wake_cache call node epoch c
    exact (wake_counts call node epoch c).books (congrArg Cache.size hsame)
      (congrArg (fun c : Cache K V => c.entries.size) hsame)
  | running node epoch prior => exact .refl _ _
  -- Here the result of a loader is counted, once its reservation is given back.
  | release node now outcome =>
    rw [hstage] at hloads
    have hcounts := release_counts (hloads rfl) node now outcome c
    cases outcome with
    | _ => exact hcounts.books rfl rfl
  | touch node now outcome =>
    have hmissed := Stage.missed_touch call.request node now outcome
    exact Counts.books (counts_of_aside rfl rfl hmissed.symm) rfl Array.size_modify
  | retire node =>
    rw [hstage] at hsuits
    obtain ⟨key, hr⟩ := hsuits
    rw [hr]
    exact Counts.books (counts_of_aside rfl rfl rfl) rfl Array.size_modify
  | done outcome => exact .refl _ _

omit [DecidableEq K] in
/-- A wait that is given up leaves nothing in the books. -/
theorem expire_books (c : Cache K V) (call : Call K V) :
    Books call.request 0 (c, call.stage) ((call.expire c).1, (call.expire c).2.stage) := by
  by_cases hwaits : ∃ node epoch, call.stage = .parked node epoch
  · obtain ⟨node, epoch, hstage⟩ := hwaits
    have hcounts := wake_counts call node epoch c
    have hsame := wake_cache call node epoch c
    unfold expire
    rw [hstage]
    dsimp only
    -- The wait is given up only if what it waits for is still in flight, and is over if not.
    split
    · next c' m n heq =>
      rw [heq] at hsame
      subst hsame
      exact Counts.books (counts_of_aside rfl rfl rfl) rfl rfl
    · exact hcounts.books (congrArg Cache.size hsame)
        (congrArg (fun c : Cache K V => c.entries.size) hsame)
  · rw [expire_awake c fun node epoch hstage => hwaits ⟨node, epoch, hstage⟩]
    exact .refl _ _

omit [DecidableEq K] in
/-- The end of a callback is not counted before the load is given back. -/
theorem resume_aside (r : Return V) (c : Cache K V) (call : Call K V) :
    (call.resume r c).1.counters = c.counters ∧ (call.resume r c).1.size = c.size ∧
      (call.resume r c).1.entries.size = c.entries.size := by
  have hsize : (call.resume r c).1.size = c.size := congrArg Table.size (resume_table r c call)
  by_cases hruns : ∃ node epoch prior, call.stage = .running node epoch prior
  · obtain ⟨node, epoch, prior, hstage⟩ := hruns
    refine ⟨?_, hsize, (resume_each r hstage).1⟩
    unfold resume
    rw [hstage]
    dsimp only
    split
    · cases r <;> rfl
    · cases r with
      | value content => exact makeDirty_counters _ _ _
      | _ => rfl
  · rw [resume_of_idle r c fun node epoch prior hstage => hruns ⟨node, epoch, prior, hstage⟩]
    exact ⟨rfl, rfl, rfl⟩

end Call

/-! ## Upkeep -/

/-- How many entries some upkeep removes other than by evictions. -/
def Cache.cleared (c : Cache K V) : Upkeep → Nat
  | .clear => c.size
  | _ => 0

/-- What upkeep leaves in the books, where `gone` entries have been removed other than by evictions.
    Hits and loads do not come into it. -/
structure Cache.Upkept (gone : Nat) (c c' : Cache K V) : Prop where
  hits : c'.counters.hits = c.counters.hits
  misses : c'.counters.misses = c.counters.misses
  landed : c'.counters.landed = c.counters.landed
  entries : c'.entries.size + c.size + c.counters.evictions =
    c.entries.size + c'.size + c'.counters.evictions + gone

namespace Cache

variable {c c' : Cache K V} {gone m n : Nat}

/-- Upkeep that counts evictions and values that are let go. -/
theorem upkept_of_counters
    (hcounters : c'.counters = { c.counters with evictions := m, detaches := n })
    (hentries : c'.entries.size = c.entries.size)
    (hsize : c'.size + m + gone = c.size + c.counters.evictions) : Upkept gone c c' where
  hits := by rw [hcounters]
  misses := by rw [hcounters]
  landed := by
    rw [hcounters]
    rfl
  entries := by
    have hevictions : c'.counters.evictions = m := by rw [hcounters]
    omega

theorem Evicted.upkept {ids : List EntryId} (h : c.Evicted ids c')
    (hentries : c'.entries.size = c.entries.size) : Upkept 0 c c' := by
  have hsize := h.size
  exact upkept_of_counters h.counters hentries (by omega)

/-- An idle pass counts the entries that it removes once it is over. -/
theorem idleTrim_upkept (hc : c.table.Complete) (held : Held) (cutoff : Nat)
    (hentries : (c.idleTrim held cutoff).1.entries.size = c.entries.size) :
    Upkept 0 c (c.idleTrim held cutoff).1 := by
  let judge : Table.Judge K EntryId (Census K V) := idler held c.idlePolicy cutoff
  -- All nodes are linked before the sweep and after it, so the list tells how many have left.
  let out := c.table.sweep lastUseIn judge (c.entries, 0)
  obtain ⟨hcomplete, hleft, -, hremoved⟩ := hc.sweep lastUseIn judge (c.entries, 0)
  have hbefore : c.table.byRecency.length = c.size := Table.Lined.length_eq hc
  have hafter : out.table.byRecency.length = out.table.size := Table.Lined.length_eq hcomplete
  have hparts : out.value.removed.length + out.table.size = c.size := by
    rw [← hafter, hleft, hremoved, List.length_reverse, Table.Judge.tour_length,
      List.length_reverse, hbefore]
  refine upkept_of_counters (m := c.counters.evictions + out.value.removed.length)
    (n := c.counters.detaches + out.value.memory.2) rfl hentries ?_
  show out.table.size + (c.counters.evictions + out.value.removed.length) + 0 =
    c.size + c.counters.evictions
  omega

theorem evictIdle_upkept (hc : c.table.Complete) (held : Held) (seconds : Nat)
    (hentries : (c.evictIdle held seconds).1.entries.size = c.entries.size) :
    Upkept 0 c (c.evictIdle held seconds).1 := by
  unfold evictIdle at hentries ⊢
  by_cases hyoung : c.now < seconds
  · rw [if_pos hyoung]
    exact ⟨rfl, rfl, rfl, rfl⟩
  · rw [if_neg hyoung] at hentries ⊢
    exact idleTrim_upkept hc held _ hentries

theorem clear_counters (held : Held) (c : Cache K V) : (c.clear held).counters = c.counters := by
  have hfold (nodes : List (EntryNode K)) (c : Cache K V) :
      (nodes.foldl (fun c node => c.modify node.payload (Entry.retire held)) c).counters =
        c.counters := by
    induction nodes generalizing c with
    | nil => rfl
    | cons node nodes ih => exact ih (c.modify node.payload (Entry.retire held))
  exact hfold c.table.clear.2 { c with table := c.table.clear.1 }

end Cache

namespace System

variable {s : System K V}

/-- Every piece of upkeep balances the books. -/
theorem keepUp_upkept [DecidableEq K] (hs : s.Reachable) (u : Upkeep) :
    Upkept (s.cache.cleared u) s.cache (s.keepUp u).cache := by
  have hc := hs.filed.complete
  have hdistinct := hs.keyed.distinct
  have hentries : (s.keepUp u).cache.entries.size = s.cache.entries.size :=
    (keepUp_keepsMark hs.sound u).1
  have haside (hu : u.thins = false) := keepUp_aside (s := s) hu
  cases u with
  | clear =>
    have hempty : (s.keepUp .clear).cache.size = 0 :=
      congrArg Table.size (clear_table s.held s.cache)
    refine upkept_of_counters (m := s.cache.counters.evictions) (n := s.cache.counters.detaches)
      (clear_counters s.held s.cache) hentries ?_
    rw [hempty]
    show 0 + s.cache.counters.evictions + s.cache.size = _
    omega
  | trim n => exact (trim_evicted hc hdistinct n).1.upkept hentries
  | setMaxCapacity n => exact (setMaxCapacity_evicted hc hdistinct n).upkept hentries
  | relieve level => exact (relieve_evicted hc hdistinct level).upkept hentries
  | pinch => exact ((evicted_nil rfl rfl rfl rfl rfl rfl).pinch hc).upkept hentries
  | idleTrim cutoff => exact idleTrim_upkept hc s.held cutoff hentries
  | evictIdle seconds => exact evictIdle_upkept hc s.held seconds hentries
  -- No other upkeep goes through the table.
  | _ =>
    obtain ⟨htable, hcounters⟩ := haside rfl
    have hsize := congrArg Table.size htable
    exact upkept_of_counters (m := s.cache.counters.evictions) (n := s.cache.counters.detaches)
      hcounters hentries (congrArg (· + s.cache.counters.evictions) hsize)

end System

end ReadThrough
