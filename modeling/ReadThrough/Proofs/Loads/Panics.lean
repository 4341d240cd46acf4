import ReadThrough.Proofs.Expiry.Decisions
import ReadThrough.Proofs.Recency.Uses
import ReadThrough.Proofs.WriteBack.Exactness

/-! # Loaders That Panic

  A load makes its entry pending before its loader runs, and it does not remember what the entry had
  before. If the loader panics, the entry is left without a value.

  - **Invoked**: a load has found its entry and its loader runs.
  - **Unwound**: the loader has panicked and the load is over.
  - **AsFound**: a key is as it was found; **OthersAsFound**: everything else is.
  - **panicked_load_iff**: everything else is always as it was found, and the key is exactly if it had
    neither a value nor an empty result.
-/

namespace ReadThrough

open Cache Entries

variable {K V : Type}

namespace System

variable [DecidableEq K] {s : System K V} {k : K} {expire : Nat} {acceptEmpty : Bool}
  {node : EntryNode K} {e : Entry K V} {q : Cache K V × Call K V}

/-! ## The loader runs -/

/-- The load of the key comes to run its loader. -/
def LoaderRuns (k : K) (expire : Nat) (acceptEmpty : Bool) (s : System K V) : Prop :=
  (s.start (.load k expire acceptEmpty)).calls[s.calls.length]?.any Call.isRunning = true

instance (s : System K V) : Decidable (s.LoaderRuns k expire acceptEmpty) := by
  unfold LoaderRuns
  infer_instance

omit [DecidableEq K] in
/-- A load has found its entry, has made it pending and runs its loader. -/
structure Invoked (node : EntryNode K) (e : Entry K V) (s : System K V)
    (q : Cache K V × Call K V) : Prop where
  stage : q.2.stage = .running node (e.epoch + 1) .unassigned
  request : ∃ key expire acceptEmpty, q.2.request = .load key expire acceptEmpty
  own : q.2.own? = none
  table : q.1.table = s.cache.table
  chain : q.1.chain = s.cache.chain
  entries : q.1.entries =
    (s.cache.entries.modify node.payload (Entry.resolve s.held)).modify node.payload Entry.begin

/-- A load of a key that is not pending runs its loader for the entry of the key, or not at all. -/
theorem start_load_invokes (hget : s.nodeAt k = some node)
    (he : s.cache.entries[node.payload]? = some e) (hpresent : e.removed = false)
    (hidle : e.value ≠ .pending) (expire : Nat) (acceptEmpty : Bool) :
    ∃ q, ((∀ m epoch, q.2.stage ≠ .parked m epoch) ∧
      (q.2.isRunning = true → s.Invoked node e q)) ∧
        s.start (.load k expire acceptEmpty) = s.withLatest q := by
  refine HaltsWith.start_awake (n := 4) (haltsWith_load hget he fun call hr hown => ?_) (by decide)
    fun q hq => hq.1
  unfold Call.inspectLoad
  rw [if_neg (by simp [hpresent])]
  cases hfind : e.find s.held s.cache.nullPolicy expire acceptEmpty s.cache.now with
  | hit v? =>
    refine .goes rfl (.halts rfl ⟨Stage.ne_parked_of_rests rfl, fun hruns => ?_⟩)
    exact absurd hruns Bool.false_ne_true
  | pending => exact absurd (Call.find_pending hfind) hidle
  | load =>
    dsimp only
    split
    · refine .goes rfl (.halts rfl ⟨Stage.ne_parked_of_rests rfl, fun hruns => ?_⟩)
      exact absurd hruns Bool.false_ne_true
    · refine .halts rfl ⟨Stage.ne_parked_of_rests rfl, fun _ => ?_⟩
      exact ⟨rfl, ⟨k, expire, acceptEmpty, hr⟩, hown, rfl, rfl, rfl⟩

/-! ## The loader panics -/

omit [DecidableEq K] in
/-- The loader of a load has panicked, and the load is over. -/
structure Unwound (node : EntryNode K) (e : Entry K V) (reason : String) (s : System K V)
    (q : Cache K V × Call K V) : Prop where
  stage : q.2.stage = .done (.panicked reason)
  table : q.1.table = s.cache.table
  chain : q.1.chain = s.cache.chain
  size : q.1.entries.size = s.cache.entries.size
  own : q.1.entries[node.payload]? = some { e with value := .unassigned, epoch := e.epoch + 1 }
  others : ∀ id, id ≠ node.payload → q.1.entries[id]? = s.cache.entries[id]?

/-- A load whose loader panics at once. -/
theorem Invoked.panics (h : s.Invoked node e q) (he : s.cache.entries[node.payload]? = some e)
    (reason : String) : ∃ q', s.Unwound node e reason q' ∧
      (s.withLatest q).reply (.panic reason) s.calls.length = s.withLatest q' := by
  obtain ⟨key, expire, acceptEmpty, hr⟩ := h.request
  let c := q.1.modify node.payload (Entry.restore (e.epoch + 1) .unassigned)
  let released := q.2.goTo (.release node q.1.now (.panicked reason))
  have hresume : q.2.resume (.panic reason) q.1 = (c, released) := by
    rw [Call.resume, h.stage, hr]
    rfl
  have hentries (id : EntryId) : c.entries[id]? = if id = node.payload then
      some { e with value := .unassigned, epoch := e.epoch + 1 } else s.cache.entries[id]? := by
    rw [modify_entries, h.entries]
    simp only [Array.getElem?_modify]
    by_cases hid : id = node.payload
    · subst hid
      simp [he, Entry.restore, Entry.isPendingAt, Entry.begin, ValueState.isPending, Entry.resolve]
    · simp [hid, Ne.symm hid]
  have hsize : c.entries.size = s.cache.entries.size := by
    rw [modify_entries, h.entries]
    simp
  have hhalts : s.HaltsWith (s.Unwound node e reason) 1 (c, released) :=
    .goes rfl (.halts rfl ⟨rfl, h.table, h.chain, hsize, (hentries _).trans (if_pos rfl),
      fun id hid => (hentries id).trans (if_neg hid)⟩)
  obtain ⟨q', hq', hcarry⟩ := hhalts.carryOn_awake (by decide) fun q hq => by simp [hq.stage]
  refine ⟨q', hq', ?_⟩
  rw [← hcarry, ← hresume]
  exact congrArg (carryOn s.calls.length)
    (withLatest_act (a := .resume (.panic reason) s.calls.length) rfl)

namespace Unwound

variable {reason : String} (h : s.Unwound node e reason q)

include h

omit [DecidableEq K] in
theorem held : (s.withLatest q).held = s.held :=
  withLatest_held (by rw [Call.holdings, h.stage]; rfl)

theorem nodeAt (k : K) : (s.withLatest q).nodeAt k = s.nodeAt k :=
  congrArg (Table.get? · k) h.table

/-- Nothing can be had of the key any more. -/
theorem valueAt (hget : s.nodeAt k = some node) : (s.withLatest q).valueAt k = none := by
  have hvalue : (s.withLatest q).cache.valueOf node.payload = .unassigned := valueOf_eq h.own
  rw [System.valueAt, h.nodeAt, hget, Option.bind_some, Cache.peek, hvalue]
  rfl

omit [DecidableEq K] in
theorem linked (hs : s.Sound) (he : s.cache.entries[node.payload]? = some e) :
    (s.withLatest q).linked = s.linked := by
  show q.1.chain.toList q.1.entries = s.linked
  refine hs.linked_congr h.chain h.size fun id => ?_
  by_cases hid : id = node.payload
  · rw [hid, DirtyChain.next?_eq he, DirtyChain.next?_eq h.own]
  · rw [DirtyChain.next?, DirtyChain.next?, h.others id hid]

end Unwound

/-! ## What is as it was found -/

/-- A get and a look for the key answer as before, and an empty result of the key is still there. -/
structure AsFound (k : K) (s t : System K V) : Prop where
  get : ∀ v?, s.GetReturns k v? → t.GetReturns k v?
  contains : t.cache.contains t.held k = s.cache.contains s.held k
  empty : ∀ node, s.nodeAt k = some node → s.cache.valueOf node.payload = .missing →
    t.nodeAt k = some node ∧ t.cache.valueOf node.payload = .missing

/-- The nodes of all keys, the dirty chain, the order of the entries and all entries but that of the
    key are as before. -/
structure OthersAsFound (k : K) (s t : System K V) : Prop where
  nodes : ∀ key, t.nodeAt key = s.nodeAt key
  linked : t.linked = s.linked
  length : t.cache.dirtyLength = s.cache.dirtyLength
  order : t.cache.order = s.cache.order
  others : ∀ id, (∀ node, s.nodeAt k = some node → id ≠ node.payload) →
    t.cache.entries[id]? = s.cache.entries[id]?

theorem Unwound.othersAsFound {reason : String} (h : s.Unwound node e reason q) (hs : s.Sound)
    (hget : s.nodeAt k = some node) (he : s.cache.entries[node.payload]? = some e) :
    s.OthersAsFound k (s.withLatest q) where
  nodes := h.nodeAt
  linked := h.linked hs he
  length := congrArg DirtyChain.length h.chain
  order := congrArg (fun t : Table K EntryId => t.byRecency.map Table.Node.payload) h.table
  others := fun id hid => h.others id (hid node hget)

/-- The load has forgotten whatever the entry had. -/
theorem Unwound.asFound_iff {reason : String} (h : s.Unwound node e reason q)
    (hget : s.nodeAt k = some node) : s.AsFound k (s.withLatest q) ↔
      s.valueAt k = none ∧ s.cache.valueOf node.payload ≠ .missing := by
  have hvalue := h.valueAt hget
  constructor
  · intro hsame
    refine ⟨?_, fun hmissing => ?_⟩
    · rw [← getReturns_iff.1 (hsame.get _ (start_get k s)), hvalue]
    · have hempty := (hsame.empty node hget hmissing).2
      rw [withLatest_cache, valueOf_eq h.own] at hempty
      cases hempty
  · rintro ⟨hnone, hmissing⟩
    refine ⟨fun v? hv => ?_, ?_, fun m hm hempty => ?_⟩
    · rw [getReturns_iff, hvalue, ← hnone, getReturns_iff.1 hv]
    · rw [contains_eq, contains_eq, hvalue, hnone]
    · rw [hget] at hm
      cases hm
      exact absurd hempty hmissing

end System

/-- Whatever the key of a load has, a loader that panics at once changes nothing but the entry of the
    key. That entry is as it was found exactly if it had neither a value that could be had nor an empty
    result: an update gives what it was given back, but a load does not. -/
theorem panicked_load_iff [DecidableEq K] {s : System K V} (hs : s.Reachable) {k : K}
    {node : EntryNode K} (hget : s.nodeAt k = some node) (hidle : ¬ s.Pending k) (expire : Nat)
    (acceptEmpty : Bool) (hruns : s.LoaderRuns k expire acceptEmpty) (reason : String) :
    let t := (s.start (.load k expire acceptEmpty)).reply (.panic reason) s.calls.length
    t.outcome? s.calls.length = some (.panicked reason) ∧ s.OthersAsFound k t ∧
      (s.AsFound k t ↔ s.valueAt k = none ∧ s.cache.valueOf node.payload ≠ .missing) := by
  obtain ⟨hnode, -⟩ := hs.keyed.table.get?_eq_some_iff.1 hget
  obtain ⟨e, he, hpresent⟩ := hs.tenants.present node hnode
  have hpending : e.value ≠ .pending := fun hpending =>
    hidle ⟨node, hget, by rw [valueOf_eq he, hpending]; rfl⟩
  obtain ⟨q, ⟨-, hinvoked⟩, hstart⟩ :=
    System.start_load_invokes hget he hpresent hpending expire acceptEmpty
  have hrunning : q.2.isRunning = true := by
    simpa [System.LoaderRuns, hstart] using hruns
  obtain ⟨q', hunwound, hreply⟩ := (hinvoked hrunning).panics he reason
  rw [hstart, hreply]
  exact ⟨by simp [System.outcome?, hunwound.stage], hunwound.othersAsFound hs.sound hget he,
    hunwound.asFound_iff hget⟩

/-- The load before has failed, so there is nothing to forget; another key has changes. -/
theorem panicked_load_iff_failed :
    let s₀ : System Nat Nat := System.new {} (.manual 0) fun _ => 0
    let ms : List (Move Nat Nat) :=
      [.start (.update 2), .reply (.value 5), .collect none, .start (.load 1 0 false),
       .reply (.fail "no"), .collect none]
    let t := ((s₀.moveAll ms).start (.load 1 3 true)).reply (.panic "no")
      (s₀.moveAll ms).calls.length
    (s₀.moveAll ms).linked = [0] ∧ (s₀.moveAll ms).OthersAsFound 1 t ∧
      (s₀.moveAll ms).AsFound 1 t := by
  intro s₀ ms t
  have hs := (System.reachable_new {} (.manual 0) fun _ => 0 : s₀.Reachable).moveAll ms
  let node : EntryNode Nat := { hash := 0, slot := 3, generation := 2, key := 1, payload := 1 }
  have hnode : (s₀.moveAll ms).nodeAt 1 = some node := by decide +kernel
  obtain ⟨-, hothers, hiff⟩ := panicked_load_iff hs hnode (by decide +kernel) 3 true
    (by decide +kernel) "no"
  exact ⟨by decide +kernel, hothers, hiff.2 ⟨by decide +kernel, by decide +kernel⟩⟩

/-- A value that has expired can still be had, until a loader for its key panics. -/
theorem panicked_load_forgets :
    ¬ ∀ s : System Nat Nat, s.Reachable → ∀ k node expire acceptEmpty reason,
      s.nodeAt k = some node → ¬ s.Pending k → s.LoaderRuns k expire acceptEmpty →
        s.AsFound k
          ((s.start (.load k expire acceptEmpty)).reply (.panic reason) s.calls.length) := by
  intro h
  let s₀ : System Nat Nat := System.new {} (.manual 0) fun _ => 0
  let ms : List (Move Nat Nat) :=
    [.start (.put 1 5), .collect none, .upkeep (.advanceClock 10)]
  have hs := (System.reachable_new {} (.manual 0) fun _ => 0 : s₀.Reachable).moveAll ms
  have hget := (h (s₀.moveAll ms) hs 1
    { hash := 0, slot := 2, generation := 1, key := 1, payload := 0 } 5 false "no"
    (by decide +kernel) (by decide +kernel) (by decide +kernel)).get (some ⟨0, 5⟩)
    (by decide +kernel)
  revert hget
  decide +kernel

end ReadThrough
